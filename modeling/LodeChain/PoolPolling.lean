import LodeChain.PoolRuns

/-!
# Clients that poll the pool

A client asks `get_pool_info` for changes, removes what left the pool and adds what entered.
-/

namespace LodeChain

namespace TxMemoryPool

open List

variable {pool other : TxMemoryPool} {view : ChainView} {clock : Nat}

/-! ## The list of removed transactions -/

theorem insertRemoved_of_le {entry : RemovedTx} {removed : List RemovedTx}
    (latest : ∀ prev ∈ removed, prev.time ≤ entry.time) :
    insertRemoved entry removed = removed ++ [entry] := by
  induction removed with
  | nil => rfl
  | cons head tail ih =>
    have notBefore : ¬ entry.time < head.time := not_lt.mpr (latest head mem_cons_self)
    rw [insertRemoved, if_neg notBefore,
      ih fun prev mem => latest prev (mem_cons_of_mem _ mem),
      cons_append]

/-- The list stays in order; what is dropped is no later than the new start time and what is kept.
-/
structure Tracks (removed kept : List RemovedTx) (start : Nat) : Prop where
  inOrder : kept.Pairwise fun earlier later => earlier.time ≤ later.time
  subset : ∀ entry ∈ kept, entry ∈ removed
  dropped : ∀ entry ∈ removed, entry ∈ kept ∨
    (entry.time ≤ start ∧ ∀ other ∈ kept, entry.time ≤ other.time)

variable {removed : List RemovedTx} {txid : Hash} {poolEntry : PoolEntry}

private theorem Tracks.drop
    (inOrder : removed.Pairwise fun prev later => prev.time ≤ later.time) {count : Nat}
    {first : RemovedTx} {rest : List RemovedTx} (kept : removed.drop count = first :: rest) :
    Tracks removed (first :: rest) first.time := by
  have split := take_append_drop count removed
  rw [kept] at split
  rw [← split] at inOrder
  obtain ⟨-, keptOrder, across⟩ := pairwise_append.mp inOrder
  refine ⟨keptOrder, ?_, ?_⟩
  · intro entry mem
    rw [← kept] at mem
    exact mem_of_mem_drop mem
  · intro entry mem
    rw [← split] at mem
    rcases mem_append.mp mem with early | late
    · exact .inr ⟨across entry early first mem_cons_self,
        fun other lt => across entry early other lt⟩
    · exact .inl late

private theorem Tracks.dropWhile
    (inOrder : removed.Pairwise fun prev later => prev.time ≤ later.time) (earliest : Nat) :
    Tracks removed (removed.dropWhile fun entry => decide (entry.time < earliest)) earliest := by
  refine ⟨inOrder.sublist (dropWhile_sublist _), ?_, ?_⟩
  · intro entry mem
    exact (dropWhile_sublist _).subset mem
  · intro entry mem
    rcases Nat.lt_or_ge entry.time earliest with early | late
    · refine .inr ⟨early.le, ?_⟩
      intro other kept
      have bound := (ListFacts.mem_dropWhile_iff inOrder).mp kept
      exact early.le.trans bound.2
    · exact .inl ((ListFacts.mem_dropWhile_iff inOrder).mpr ⟨mem, late⟩)

theorem trackRemovedTx_spec (txid : Hash) (sensitive : Bool)
    (inOrder : pool.removedTxsByTime.Pairwise fun prev later => prev.time ≤ later.time)
    (past : ∀ entry ∈ pool.removedTxsByTime, entry.time ≤ view.now) :
    ∃ kept start, pool.trackRemovedTx view txid sensitive = { pool with
          removedTxsByTime := kept, removedTxsStartTime := start } ∧
      Tracks (pool.removedTxsByTime ++ [⟨view.now, txid, sensitive⟩]) kept start ∧
      ∀ bound ≤ view.now, bound ≤ pool.removedTxsStartTime →
        (∀ entry ∈ pool.removedTxsByTime, bound ≤ entry.time) → bound ≤ start := by
  have inserted := @insertRemoved_of_le ⟨view.now, txid, sensitive⟩ _ past
  have extended : (pool.removedTxsByTime ++ [(⟨view.now, txid, sensitive⟩ : RemovedTx)]).Pairwise
        fun prev later => prev.time ≤ later.time := by
    refine pairwise_append.mpr ⟨inOrder, pairwise_singleton _ _, ?_⟩
    simpa using past
  have bounded : ∀ bound ≤ view.now, (∀ entry ∈ pool.removedTxsByTime, bound ≤ entry.time) →
        ∀ entry ∈ pool.removedTxsByTime ++ [⟨view.now, txid, sensitive⟩], bound ≤ entry.time := by
    intro bound now old
    exact forall_mem_append.mpr ⟨old, forall_mem_singleton.mpr now⟩
  unfold trackRemovedTx
  dsimp only
  rw [inserted]
  generalize pool.removedTxsByTime ++
    [(⟨view.now, txid, sensitive⟩ : RemovedTx)] = removed at extended bounded ⊢
  split
  · rename_i long
    rcases kept : removed.drop (20000 / 4 + 1) with _ | ⟨first, rest⟩
    · have short := drop_eq_nil_iff.mp kept
      omega
    · refine ⟨_, _, rfl, Tracks.drop extended kept, ?_⟩
      intro bound now _ old
      refine bounded bound now old first ?_
      have mem : first ∈ removed.drop (20000 / 4 + 1) := by
        rw [kept]
        exact mem_cons_self
      exact mem_of_mem_drop mem
  · split
    · rename_i stale
      refine ⟨_, _, rfl, Tracks.dropWhile extended _, ?_⟩
      intro bound now _ old
      obtain ⟨entry, mem, early⟩ := any_eq_true.mp stale
      exact (bounded bound now old entry mem).trans (of_decide_eq_true early).le
    · refine ⟨_, _, rfl, ⟨extended, fun _ mem => mem, fun _ mem => .inl mem⟩, ?_⟩
      intro bound now started _
      split
      · exact now
      · exact started

/-! ## What the lists say about the pool -/

structure Tracked (pool : TxMemoryPool) (clock : Nat) : Prop where
  listed : ∀ txid, pool.haveTx txid → (pool.addedTxsById.lookup txid).isSome
  inOrder : pool.removedTxsByTime.Pairwise fun earlier later =>
    earlier.time ≤ later.time
  past : ∀ entry ∈ pool.removedTxsByTime, entry.time ≤ clock
  readded : ∀ entry ∈ pool.removedTxsByTime, ∀ time,
    pool.addedTxsById.lookup entry.txid = some time → entry.time ≤ time

theorem Tracked.later (tracked : pool.Tracked clock) {now : Nat} (later : clock ≤ now) :
    pool.Tracked now :=
  ⟨tracked.listed, tracked.inOrder, fun entry mem => (tracked.past entry mem).trans later,
    tracked.readded⟩

private theorem Tracked.of_same (tracked : pool.Tracked clock)
    (stored : ∀ txid, other.haveTx txid → pool.haveTx txid)
    (added : other.addedTxsById = pool.addedTxsById)
    (removed : other.removedTxsByTime = pool.removedTxsByTime) : other.Tracked clock := by
  refine ⟨?_, ?_, ?_, ?_⟩
  · intro txid present
    rw [added]
    exact tracked.listed txid (stored txid present)
  · rw [removed]
    exact tracked.inOrder
  · rw [removed]
    exact tracked.past
  · rw [removed, added]
    exact tracked.readded

private theorem Tracked.list (tracked : pool.Tracked view.now)
    (written : other.txpool = pool.txpool.insert txid poolEntry)
    (added : other.addedTxsById = pool.addedTxsById.insert txid view.now)
    (removed : other.removedTxsByTime = pool.removedTxsByTime) : other.Tracked view.now := by
  refine ⟨?_, ?_, ?_, ?_⟩
  · intro id present
    rw [added]
    by_cases same : id = txid
    · subst same
      simp
    · rw [AList.lookup_insert_ne same]
      exact tracked.listed id (((haveTx_insert written).mp present).resolve_left same)
  · rw [removed]
    exact tracked.inOrder
  · rw [removed]
    exact tracked.past
  · intro entry mem time found
    rw [removed] at mem
    rw [added] at found
    rcases AList.lookup_insert_eq_some_iff.mp found with
      ⟨_, rfl⟩ | ⟨_, before⟩
    · exact tracked.past entry mem
    · exact tracked.readded entry mem time before

theorem removeEntry_lists (position : Option FeeOrderEntry)
    (txid : Hash) (poolEntry : PoolEntry) (tracked : pool.Tracked view.now) :
    ∃ kept start, (pool.removeEntry view position txid poolEntry).addedTxsById =
        pool.addedTxsById.erase txid ∧
      (pool.removeEntry view position txid poolEntry).removedTxsByTime = kept ∧
      (pool.removeEntry view position txid poolEntry).removedTxsStartTime = start ∧
      Tracks (pool.removedTxsByTime ++ [⟨view.now, txid,
        !poolEntry.txMeta.relayMethod.matchesBroadcasted⟩]) kept start ∧
      ∀ bound ≤ view.now, bound ≤ pool.removedTxsStartTime →
        (∀ entry ∈ pool.removedTxsByTime, bound ≤ entry.time) → bound ≤ start := by
  let erased : TxMemoryPool := { pool with
      txsByFeeAndReceiveTime := pool.eraseSorted position
      addedTxsById := pool.addedTxsById.erase txid }
  obtain ⟨kept, start, eq, tracks, bounded⟩ := @trackRemovedTx_spec erased view txid
      _ tracked.inOrder
      tracked.past
  have removes : pool.removeTxFromTransientLists view position txid
      (!poolEntry.txMeta.relayMethod.matchesBroadcasted) = { erased with
          removedTxsByTime := kept, removedTxsStartTime := start } := eq
  refine ⟨kept, start, ?_, ?_, ?_, tracks, bounded⟩
  all_goals
    rw [removeEntry_eq, removes]
    rfl

private theorem Tracked.remove {position : Option FeeOrderEntry} (tracked : pool.Tracked view.now) :
    (pool.removeEntry view position txid poolEntry).Tracked view.now := by
  obtain ⟨kept, start, added, removed, -, tracks, -⟩ :=
    removeEntry_lists position txid poolEntry tracked
  refine ⟨?_, ?_, ?_, ?_⟩
  · intro id present
    obtain ⟨ne, before⟩ := (haveTx_erase (removeEntry_txpool _ _ _ _ _)).mp present
    rw [added, AList.lookup_erase_ne ne]
    exact tracked.listed id before
  · rw [removed]
    exact tracks.inOrder
  · intro entry mem
    rw [removed] at mem
    rcases mem_append.mp (tracks.subset entry mem) with old | new
    · exact tracked.past entry old
    · rw [mem_singleton] at new
      rw [new]
  · intro entry mem time found
    rw [removed] at mem
    rw [added] at found
    obtain ⟨ne, before⟩ := AList.lookup_erase_eq_some_iff.mp found
    rcases mem_append.mp (tracks.subset entry mem) with old | new
    · exact tracked.readded entry old time before
    · rw [mem_singleton] at new
      exact absurd (congrArg RemovedTx.txid new) ne

theorem Tracked.move {policy : Policy} (tracked : pool.Tracked view.now)
    (move : Move policy view pool other) : other.Tracked view.now := by
  cases move with
  | note | recount => exact tracked.of_same (fun _ present => present) rfl rfl
  | rewrite found tx weight visible =>
    refine tracked.of_same ?_ rfl rfl
    intro id present
    rcases (haveTx_insert rfl).mp present with same | old
    · rw [same]
      simp [haveTx, found]
    · exact old
  | announce found tx weight visible resubmits feePerByte receiveTime =>
    exact tracked.list rfl rfl rfl
  | remove found points => exact tracked.remove
  | store submits resubmits same relays indexes =>
    obtain ⟨images, cookie, rfl⟩ := insertKeyImages_frame indexes
    exact tracked.list rfl rfl rfl
  | refuse submits indexes =>
    obtain ⟨images, cookie, rfl⟩ := insertKeyImages_frame indexes
    exact tracked.of_same (fun _ present => present) rfl rfl

/-! ## Clients that poll the pool -/

def Visible (pool : TxMemoryPool) (includeSensitive : Bool) (txid : Hash) : Prop :=
  ∃ poolEntry, pool.txpool.lookup txid = some poolEntry ∧
    isVisible includeSensitive poolEntry.txMeta

structure PollClient where
  lastPoll : Nat
  held : List Hash

def reported (info : PoolInfo) : List Hash :=
  info.addedTxs.map Prod.fst ++ info.remainingAddedTxids

/-- The first poll asks for the whole pool; an answer that is not incremental replaces what is
held. -/
def poll (pool : TxMemoryPool) (includeSensitive : Bool) (maxTxCount : Nat)
    (now : Nat) (client : Option PollClient) : PollClient :=
  let startTime := (client.map PollClient.lastPoll).getD 0
  let held := (client.map PollClient.held).getD []
  let info := pool.getPoolInfo startTime includeSensitive maxTxCount
  { lastPoll := now
    held := if info.incremental then
        (held.filter fun txid => decide (txid ∉ info.removedTxs)) ++ reported info
      else reported info }

/-- Operations and polls of one client in any order, under a clock that never
goes back. -/
inductive Polling (includeSensitive : Bool) : TxMemoryPool → Nat → Option PollClient → Prop
  | empty : Polling includeSensitive TxMemoryPool.empty 0 none
  | addTx {pool : TxMemoryPool} {clock : Nat} {client : Option PollClient}
      (polling : Polling includeSensitive pool clock client) (view : ChainView)
      (later : clock ≤ view.now) (tx : Transaction) (txid : Hash)
      (txWeight : Nat) (txRelay : RelayMethod) (relayed : Bool)
      (version : Nat) :
      Polling includeSensitive (pool.addTx view tx txid txWeight txRelay relayed version).1 view.now
        client
  | takeTx {pool other : TxMemoryPool} {clock : Nat}
      {client : Option PollClient} {poolEntry : PoolEntry}
      (polling : Polling includeSensitive pool clock client) (view : ChainView)
      (later : clock ≤ view.now) (txid : Hash)
      (taken : pool.takeTx view txid = some (poolEntry, other)) :
      Polling includeSensitive other view.now client
  | prune {pool : TxMemoryPool} {clock : Nat} {client : Option PollClient}
      (polling : Polling includeSensitive pool clock client) (view : ChainView)
      (later : clock ≤ view.now) (bytes : Nat) :
      Polling includeSensitive (pool.prune view bytes) view.now client
  | removeStuckTransactions {pool : TxMemoryPool} {clock : Nat} {client : Option PollClient}
      (polling : Polling includeSensitive pool clock client) (view : ChainView)
      (later : clock ≤ view.now) :
      Polling includeSensitive (pool.removeStuckTransactions view) view.now client
  | setRelayed {pool : TxMemoryPool} {clock : Nat} {client : Option PollClient}
      (polling : Polling includeSensitive pool clock client) (view : ChainView)
      (later : clock ≤ view.now) (method : RelayMethod)
      (hashes : List (Hash × Nat)) :
      Polling includeSensitive (pool.setRelayed view method hashes).1 view.now client
  | poll {pool : TxMemoryPool} {clock : Nat} {client : Option PollClient}
      (polling : Polling includeSensitive pool clock client) (now : Nat)
      (later : clock ≤ now) (maxTxCount : Nat) :
      Polling includeSensitive pool now (some (pool.poll includeSensitive maxTxCount now client))

variable {includeSensitive : Bool} {client : PollClient}

/-- Whatever is held is visible, or listed as removed, or the list does not go back to the last
poll; whatever else is visible has entered since. -/
structure Informed (includeSensitive : Bool) (pool : TxMemoryPool)
    (client : PollClient) : Prop where
  left : ∀ txid ∈ client.held, pool.Visible includeSensitive txid ∨
    (∃ entry ∈ pool.removedTxsByTime, entry.txid = txid ∧ client.lastPoll ≤ entry.time ∧
        (includeSensitive ∨ entry.sensitive = false)) ∨
    (client.lastPoll ≤ pool.removedTxsStartTime ∧
      ∀ entry ∈ pool.removedTxsByTime, client.lastPoll ≤ entry.time)
  entered : ∀ txid, pool.Visible includeSensitive txid → txid ∈ client.held ∨
      ∃ time, pool.addedTxsById.lookup txid = some time ∧ client.lastPoll ≤ time

private theorem Informed.grow (informed : Informed includeSensitive pool client)
    (keeps : ∀ txid, pool.Visible includeSensitive txid → other.Visible includeSensitive txid)
    (gains : ∀ txid, other.Visible includeSensitive txid → (pool.Visible includeSensitive txid ∧
        other.addedTxsById.lookup txid = pool.addedTxsById.lookup txid) ∨
      ∃ time, other.addedTxsById.lookup txid = some time ∧ client.lastPoll ≤ time)
    (removed : other.removedTxsByTime = pool.removedTxsByTime)
    (start : other.removedTxsStartTime = pool.removedTxsStartTime) :
    Informed includeSensitive other client := by
  constructor
  · intro txid mem
    rw [removed, start]
    exact (informed.left txid mem).imp_left (keeps txid)
  · intro txid visible
    rcases gains txid visible with ⟨before, same⟩ | listed
    · rw [same]
      exact informed.entered txid before
    · exact .inr listed

private theorem visible_insert_ne {id : Hash}
    (written : other.txpool = pool.txpool.insert txid poolEntry) (ne : id ≠ txid) :
    other.Visible includeSensitive id ↔ pool.Visible includeSensitive id := by
  unfold Visible
  rw [written, AList.lookup_insert_ne ne]

private theorem Informed.list (informed : Informed includeSensitive pool client)
    (polled : client.lastPoll ≤ view.now)
    (written : other.txpool = pool.txpool.insert txid poolEntry)
    (keeps : pool.Visible includeSensitive txid → isVisible includeSensitive poolEntry.txMeta)
    (added : other.addedTxsById = pool.addedTxsById.insert txid view.now)
    (removed : other.removedTxsByTime = pool.removedTxsByTime)
    (start : other.removedTxsStartTime = pool.removedTxsStartTime) :
    Informed includeSensitive other client := by
  refine informed.grow ?_ ?_ removed start
  · intro id visible
    by_cases same : id = txid
    · subst same
      refine ⟨poolEntry, ?_, keeps visible⟩
      rw [written, AList.lookup_insert]
    · exact (visible_insert_ne written same).mpr visible
  · intro id visible
    rw [added]
    by_cases same : id = txid
    · subst same
      exact .inr ⟨view.now, AList.lookup_insert _, polled⟩
    · rw [AList.lookup_insert_ne same]
      exact .inl ⟨(visible_insert_ne written same).mp visible, rfl⟩

private theorem reports_removal {removed kept : List RemovedTx} {start : Nat}
    (tracks : Tracks removed kept start) {entry : RemovedTx} (mem : entry ∈ removed)
    (recent : client.lastPoll ≤ entry.time) (shown : includeSensitive ∨ entry.sensitive = false) :
    (∃ other ∈ kept, other.txid = entry.txid ∧ client.lastPoll ≤ other.time ∧
        (includeSensitive ∨ other.sensitive = false)) ∨
    (client.lastPoll ≤ start ∧ ∀ other ∈ kept, client.lastPoll ≤ other.time) := by
  rcases tracks.dropped entry mem with stays | ⟨early, before⟩
  · exact .inl ⟨entry, stays, rfl, recent, shown⟩
  · exact .inr ⟨recent.trans early, fun other lt => recent.trans (before other lt)⟩

private theorem Informed.remove {position : Option FeeOrderEntry}
    (informed : Informed includeSensitive pool client) (tracked : pool.Tracked view.now)
    (polled : client.lastPoll ≤ view.now) (found : pool.txpool.lookup txid = some poolEntry) :
    Informed includeSensitive (pool.removeEntry view position txid poolEntry) client := by
  obtain ⟨kept, start, added, removed, started, tracks, bounded⟩ :=
    removeEntry_lists position txid poolEntry tracked
  have others : ∀ id, id ≠ txid → ((pool.removeEntry view position txid poolEntry).Visible
        includeSensitive id ↔ pool.Visible includeSensitive id) := by
    intro id ne
    unfold Visible
    rw [removeEntry_txpool, AList.lookup_erase_ne ne]
  constructor
  · intro id mem
    rw [removed, started]
    rcases informed.left id mem with visible | removal | ⟨short, old⟩
    · by_cases same : id = txid
      · subst same
        obtain ⟨current, lookup, seen⟩ := visible
        rw [found, Option.some.injEq] at lookup
        subst lookup
        right
        refine reports_removal tracks (mem_append_right _ (mem_singleton.mpr rfl)) polled ?_
        simpa [isVisible] using seen
      · exact .inl ((others id same).mpr visible)
    · obtain ⟨entry, recorded, names, recent, shown⟩ := removal
      right
      rw [← names]
      exact reports_removal tracks (mem_append_left _ recorded) recent shown
    · refine .inr (.inr ⟨bounded _ polled short old, ?_⟩)
      intro entry lt
      rcases mem_append.mp (tracks.subset entry lt) with recorded | new
      · exact old entry recorded
      · rw [mem_singleton] at new
        rw [new]
        exact polled
  · intro id visible
    have ne : id ≠ txid := by
      rintro rfl
      obtain ⟨current, lookup, -⟩ := visible
      rw [removeEntry_txpool, AList.lookup_erase] at lookup
      simp at lookup
    rw [added, AList.lookup_erase_ne ne]
    exact informed.entered id ((others id ne).mp visible)

theorem Informed.move {policy : Policy} (informed : Informed includeSensitive pool client)
    (tracked : pool.Tracked view.now) (polled : client.lastPoll ≤ view.now)
    (move : Move policy view pool other) : Informed includeSensitive other client := by
  cases move with
  | note | recount => exact ⟨informed.left, informed.entered⟩
  | rewrite found tx weight visible =>
    rename_i txid original poolEntry
    have same : ∀ id, (({ pool with
        txpool := pool.txpool.insert txid poolEntry } :
        TxMemoryPool).Visible includeSensitive id ↔ pool.Visible includeSensitive id) := by
      intro id
      by_cases eq : id = txid
      · subst eq
        simp [Visible, found, isVisible, visible]
      · exact visible_insert_ne rfl eq
    exact informed.grow (fun id => (same id).mpr)
      (fun id seen => .inl ⟨(same id).mp seen, rfl⟩) rfl rfl
  | announce found tx weight visible resubmits feePerByte receiveTime =>
    refine informed.list polled rfl ?_ rfl rfl rfl
    intro _
    simp [isVisible, visible]
  | remove found points => exact informed.remove tracked polled found
  | store submits resubmits same relays indexes =>
    obtain ⟨images, cookie, rfl⟩ := insertKeyImages_frame indexes
    refine informed.list polled rfl ?_ rfl rfl rfl
    rintro ⟨original, found, seen⟩
    have raised : ∀ current method : RelayMethod, current.matchesBroadcasted = true →
          (current.upgrade method).matchesBroadcasted = true := by
      intro current method
      cases current <;> cases method <;> decide
    unfold isVisible at seen ⊢
    rw [relays, currentRelay, found]
    rcases Bool.or_eq_true_iff.mp seen with all | broadcast
    · rw [all]
      rfl
    · exact Bool.or_eq_true_iff.mpr (.inr (raised _ _ broadcast))
  | refuse submits indexes =>
    obtain ⟨images, cookie, rfl⟩ := insertKeyImages_frame indexes
    exact ⟨informed.left, informed.entered⟩

/-! ## The answers a polling client gets -/

open Option

variable {client : Option PollClient} {startTime maxTxCount : Nat}

theorem mem_getTransactionHashes :
    txid ∈ pool.getTransactionHashes includeSensitive ↔ pool.Visible includeSensitive txid := by
  constructor
  · intro mem
    obtain ⟨entry, lt, rfl⟩ := mem_map.mp mem
    obtain ⟨stored, seen⟩ := mem_filter.mp lt
    exact ⟨entry.2, AList.mem_lookup_iff.mpr stored, seen⟩
  · rintro ⟨poolEntry, found, seen⟩
    exact mem_map.mpr ⟨⟨txid, poolEntry⟩, mem_filter.mpr ⟨AList.mem_lookup_iff.mp found, seen⟩, rfl⟩

theorem isSome_getTransactionInfo : (pool.getTransactionInfo txid includeSensitive).isSome ↔
      pool.Visible includeSensitive txid := by
  unfold getTransactionInfo Visible
  rcases pool.txpool.lookup txid with _ | ⟨txMeta, tx⟩
  · simp
  · cases seen : isVisible includeSensitive txMeta with
    | false => simp [seen]
    | true => simp [seen]

theorem mem_getTransactionsInfo {txids : List Hash} :
    txid ∈ (pool.getTransactionsInfo txids includeSensitive).map Prod.fst ↔
      txid ∈ txids ∧ pool.Visible includeSensitive txid := by
  unfold getTransactionsInfo
  rw [← isSome_getTransactionInfo, map_filterMap]
  constructor
  · intro mem
    obtain ⟨id, lt, found⟩ := mem_filterMap.mp mem
    rcases info : pool.getTransactionInfo id includeSensitive with _ | details
    · rw [info] at found
      simp at found
    · rw [info] at found
      obtain rfl : id = txid := Option.some.inj found
      exact ⟨lt, by rw [info]; rfl⟩
  · rintro ⟨lt, found⟩
    obtain ⟨details, info⟩ := isSome_iff_exists.mp found
    refine mem_filterMap.mpr ⟨txid, lt, ?_⟩
    rw [info]
    rfl

theorem mem_reported_full (full : pool.answersIncrementally startTime = false) :
    txid ∈ reported (pool.getPoolInfo startTime includeSensitive maxTxCount) ↔
      pool.Visible includeSensitive txid := by
  unfold getPoolInfo reported
  rw [full, if_neg Bool.false_ne_true]
  rw [mem_append, mem_getTransactionsInfo]
  have split := take_append_drop maxTxCount (pool.getTransactionHashes includeSensitive)
  have all : txid ∈ (pool.getTransactionHashes includeSensitive).take
        maxTxCount ∨ txid ∈ (pool.getTransactionHashes includeSensitive).drop
        maxTxCount ↔ pool.Visible includeSensitive txid := by
    rw [← mem_append, split, mem_getTransactionHashes]
  constructor
  · rintro (⟨-, visible⟩ | later)
    · exact visible
    · exact all.mp (.inr later)
  · intro visible
    exact (all.mpr visible).imp_left fun first => ⟨first, visible⟩

theorem mem_reported_incremental (incremental : pool.answersIncrementally startTime = true) :
    txid ∈ reported (pool.getPoolInfo startTime includeSensitive maxTxCount) ↔
      pool.Visible includeSensitive txid ∧ ∃ time, pool.addedTxsById.lookup txid = some time ∧
          startTime ≤ time := by
  unfold getPoolInfo reported
  rw [incremental, if_pos rfl]
  rw [← map_append, take_append_drop, mem_getTransactionsInfo, and_comm]
  refine and_congr_right fun _ => ?_
  constructor
  · intro mem
    obtain ⟨entry, lt, rfl⟩ := mem_map.mp mem
    obtain ⟨stored, recent⟩ := mem_filter.mp lt
    exact ⟨entry.2, AList.mem_lookup_iff.mpr stored, of_decide_eq_true recent⟩
  · rintro ⟨time, found, recent⟩
    exact mem_map.mpr ⟨⟨txid, time⟩, mem_filter.mpr
      ⟨AList.mem_lookup_iff.mp found, decide_eq_true recent⟩, rfl⟩

theorem mem_removedTxs_incremental (incremental : pool.answersIncrementally startTime = true)
    (inOrder : pool.removedTxsByTime.Pairwise fun prev later => prev.time ≤ later.time) :
    txid ∈ (pool.getPoolInfo startTime includeSensitive maxTxCount).removedTxs ↔
      ∃ entry ∈ pool.removedTxsByTime, entry.txid = txid ∧ startTime ≤ entry.time ∧
          (includeSensitive ∨ entry.sensitive = false) := by
  unfold getPoolInfo
  rw [incremental]
  constructor
  · intro mem
    obtain ⟨entry, lt, rfl⟩ := mem_map.mp mem
    obtain ⟨recent, shown⟩ := mem_filter.mp lt
    obtain ⟨stored, late⟩ := (ListFacts.mem_dropWhile_iff inOrder).mp recent
    exact ⟨entry, stored, rfl, late, by simpa using shown⟩
  · rintro ⟨entry, stored, rfl, late, shown⟩
    refine mem_map.mpr ⟨entry, mem_filter.mpr ⟨?_, ?_⟩, rfl⟩
    · exact (ListFacts.mem_dropWhile_iff inOrder).mpr ⟨stored, late⟩
    · simpa using shown

theorem Informed.poll {polled : PollClient} (informed : Informed includeSensitive pool polled)
    (tracked : pool.Tracked clock) (now : Nat) :
    txid ∈ (pool.poll includeSensitive maxTxCount now (some polled)).held ↔
      pool.Visible includeSensitive txid := by
  have incrementalFlag : (pool.getPoolInfo polled.lastPoll includeSensitive
      maxTxCount).incremental = pool.answersIncrementally polled.lastPoll := by
    unfold getPoolInfo
    split
    · rename_i incremental
      exact incremental.symm
    · rename_i full
      exact (Bool.eq_false_iff.mpr full).symm
  unfold TxMemoryPool.poll
  dsimp only [map_some, getD_some]
  rw [incrementalFlag]
  cases answers : pool.answersIncrementally polled.lastPoll with
  | false => exact mem_reported_full answers
  | true =>
    have recent : pool.removedTxsStartTime < polled.lastPoll := by
      simp [answersIncrementally]
        at answers
      omega
    rw [if_pos rfl, mem_append, mem_filter,
      decide_eq_true_iff, mem_removedTxs_incremental answers tracked.inOrder,
      mem_reported_incremental answers]
    constructor
    · rintro (⟨held, kept⟩ | ⟨visible, -⟩)
      · rcases informed.left txid held with visible | removal | ⟨short, -⟩
        · exact visible
        · exact absurd removal kept
        · omega
      · exact visible
    · intro visible
      rcases informed.entered txid visible with held | entered
      · by_cases removed : ∃ entry ∈ pool.removedTxsByTime,
            entry.txid = txid ∧ polled.lastPoll ≤ entry.time ∧
              (includeSensitive ∨ entry.sensitive = false)
        · right
          refine ⟨visible, ?_⟩
          obtain ⟨entry, recorded, names, late, -⟩ := removed
          obtain ⟨poolEntry, found, -⟩ := visible
          obtain ⟨time, listed⟩ := isSome_iff_exists.mp
            (tracked.listed txid (by simp [haveTx, found]))
          exact ⟨time, listed, late.trans (tracked.readded entry recorded time (names ▸ listed))⟩
        · exact .inl ⟨held, removed⟩
      · exact .inr ⟨visible, entered⟩

private structure Follows (includeSensitive : Bool) (pool : TxMemoryPool)
    (clock : Nat) (client : Option PollClient) : Prop where
  tracked : pool.Tracked clock
  informed : ∀ polled, client = some polled →
    polled.lastPoll ≤ clock ∧ Informed includeSensitive pool polled

private theorem Follows.moves {policy : Policy} {view : ChainView} {other : TxMemoryPool}
    (follows : Follows includeSensitive pool clock client)
    (later : clock ≤ view.now) (moves : Moves policy view pool other) :
    Follows includeSensitive other view.now client := by
  have start : Follows includeSensitive pool view.now client :=
    ⟨follows.tracked.later later, fun polled same =>
      (follows.informed polled same).imp_left fun before => before.trans later⟩
  refine @Moves.invariant policy view pool other
    (fun pool => Follows includeSensitive pool view.now client) ?_ start moves
  intro current next holds move
  refine ⟨holds.tracked.move move, ?_⟩
  intro polled same
  obtain ⟨before, informed⟩ := holds.informed polled same
  exact ⟨before, informed.move holds.tracked before move⟩

private theorem Follows.poll (follows : Follows includeSensitive pool clock client) (now : Nat) :
    txid ∈ (pool.poll includeSensitive maxTxCount now client).held ↔
      pool.Visible includeSensitive txid := by
  cases client with
  | none =>
    have full : pool.answersIncrementally 0 = false := rfl
    have held : (pool.poll includeSensitive maxTxCount now none).held =
        reported (pool.getPoolInfo 0 includeSensitive maxTxCount) := by
      unfold TxMemoryPool.poll getPoolInfo
      rfl
    exact mem_reported_full full
  | some polled => exact (follows.informed polled rfl).2.poll follows.tracked now

private theorem Polling.follows (polling : Polling includeSensitive pool clock client) :
    Follows includeSensitive pool clock client := by
  induction polling with
  | empty =>
    refine ⟨⟨?_, List.Pairwise.nil, ?_, ?_⟩, ?_⟩
    · intro txid present
      simp [haveTx, TxMemoryPool.empty] at present
    · intro entry mem
      simp [TxMemoryPool.empty] at mem
    · intro entry mem
      simp [TxMemoryPool.empty] at mem
    · intro polled same
      simp at same
  | addTx polling view later tx txid txWeight txRelay relayed version ih =>
    exact ih.moves later (addTx_moves Policy.any_permits)
  | takeTx polling view later txid taken ih =>
    exact ih.moves later (@takeTx_moves Policy.any _ _ _ _ _ taken)
  | prune polling view later bytes ih => exact ih.moves later (@prune_moves Policy.any _ view bytes)
  | removeStuckTransactions polling view later ih =>
    exact ih.moves later (@removeStuckTransactions_moves Policy.any _ view)
  | setRelayed polling view later method hashes ih =>
    exact ih.moves later (setRelayed_moves _ view method hashes)
  | poll polling now later maxTxCount ih =>
    refine ⟨ih.tracked.later later, ?_⟩
    intro polled same
    obtain rfl := Option.some.inj same
    refine ⟨le_refl _, ?_, ?_⟩
    · intro txid mem
      exact .inl ((ih.poll now).mp mem)
    · intro txid visible
      exact .inl ((ih.poll now).mpr visible)

def visitedPool : TxMemoryPool :=
  ((TxMemoryPool.empty.addTx (acceptingView 10) (spendingTx [7]) 1 1500 .fluff
    false 16).1.removeStuckTransactions (acceptingView 300000))

def refilledPool : TxMemoryPool :=
  (visitedPool.addTx (acceptingView 300001) (spendingTx [8]) 2 1500 .fluff false 16).1

def pollingClient : PollClient :=
  visitedPool.poll false 1000 300001 none

theorem refilledPool_polling : Polling false refilledPool 300001 (some pollingClient) := by
  have entered := Polling.addTx (@Polling.empty false) (acceptingView 10)
    (Nat.zero_le 10) (spendingTx [7]) 1 1500 .fluff false 16
  have left := Polling.removeStuckTransactions entered (acceptingView 300000) (by decide)
  have polled := Polling.poll left 300001 (by decide) 1000
  exact Polling.addTx polled _ (by decide)
    _ 2 1500 .fluff false 16

end TxMemoryPool

end LodeChain

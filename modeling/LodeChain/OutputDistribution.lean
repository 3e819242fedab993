import LodeChain.LmdbRuns

/-!
# The distribution of outputs over heights

`Blockchain::get_output_distribution` reports how many outputs of an amount there are up to each
height.
-/

namespace LodeChain

open OrderedTable List BlockEntry

def BlockEntry.contents (entry : BlockEntry) : Block × List Transaction :=
  (entry.bl, entry.txs)

namespace Lmdb

def storedRct : List BlockEntry → Nat
  | [] => 0
  | entry :: earlier =>
    if entry.bl.majorVersion < 4 then numRctOuts entry
    else numRctOuts entry + storedRct earlier

def rctAt (chain : List BlockEntry) (height : Nat) : Nat :=
  storedRct (chain.take (height + 1)).reverse

variable {left right chain : List BlockEntry} {senv : StorageEnv} {entry : BlockEntry}
  {after tables : BlockTables}

theorem storedRct_congr (same : left.map contents = right.map contents) :
    storedRct left = storedRct right := by
  induction left generalizing right with
  | nil => rw [map_eq_nil_iff.mp same.symm]
  | cons entry earlier ih =>
    cases right with
    | nil => simp at same
    | cons other others =>
      rw [map_cons, map_cons, cons.injEq] at same
      obtain ⟨blocks, txs⟩ := Prod.mk.inj same.1
      rw [storedRct, storedRct, ih same.2, numRctOuts, numRctOuts, blocks, txs]

def tablesOf (senv : StorageEnv) (chain : List BlockEntry) : Option BlockTables :=
  chain.foldlM (fun tables entry =>
    tables.add entry (numRctOuts entry) (senv.getBlockHash entry.bl)) .empty

theorem tablesOf_concat :
    tablesOf senv (chain ++ [entry]) = some after ↔ ∃ tables, tablesOf senv chain = some tables ∧
        tables.add entry (numRctOuts entry) (senv.getBlockHash entry.bl) = some after := by
  rw [tablesOf, foldlM_append, Option.bind_eq_bind, Option.bind_eq_some_iff, ← tablesOf]
  simp

variable {txHash : Hash} {txs : List Transaction} {block : Block} {kept : List BlockEntry}
  {height : Nat}

section Steps

variable {db after : Lmdb}

theorem addTransaction_blocks {tx : Transaction}
    (added : db.addTransaction senv tx txHash = some after) : after.blocks = db.blocks := by
  obtain ⟨spentKeys, -, added⟩ := Option.bind_eq_some_iff.mp added
  obtain ⟨data, -, added⟩ := Option.bind_eq_some_iff.mp added
  obtain ⟨filed, -, added⟩ := Option.bind_eq_some_iff.mp added
  obtain ⟨txs, -, added⟩ := Option.bind_eq_some_iff.mp added
  rw [← Option.some.inj added]

theorem addTransactions_blocks {txs : List (Transaction × Hash)}
    (added : db.addTransactions senv txs = some after) : after.blocks = db.blocks := by
  induction txs generalizing db with
  | nil => rw [← Option.some.inj added]
  | cons stored rest ih =>
    obtain ⟨middle, first, later⟩ := Option.bind_eq_some_iff.mp added
    rw [ih later, addTransaction_blocks first]

theorem removeTransaction_blocks
    (removed : db.removeTransaction txHash = some after) : after.blocks = db.blocks := by
  obtain ⟨tx, -, removed⟩ := Option.bind_eq_some_iff.mp removed
  obtain ⟨data, -, removed⟩ := Option.bind_eq_some_iff.mp removed
  obtain ⟨-, -, removed⟩ := Option.bind_eq_some_iff.mp removed
  obtain ⟨outputs, -, removed⟩ := Option.bind_eq_some_iff.mp removed
  rw [← Option.some.inj removed]

theorem popTransactions_blocks {hashes : List Hash}
    (popped : db.popTransactions hashes = some (txs, after)) : after.blocks = db.blocks := by
  induction hashes generalizing db txs with
  | nil =>
    rw [popTransactions, Option.some.injEq, Prod.mk.injEq] at popped
    rw [popped.2]
  | cons txHash rest ih =>
    obtain ⟨tx, -, popped⟩ := Option.bind_eq_some_iff.mp popped
    obtain ⟨removed, first, popped⟩ := Option.bind_eq_some_iff.mp popped
    obtain ⟨⟨others, final⟩, later, popped⟩ := Option.bind_eq_some_iff.mp popped
    rw [Option.some.injEq, Prod.mk.injEq] at popped
    rw [popped.2] at later
    rw [ih later, removeTransaction_blocks first]

theorem addBlock_blocks (added : db.addBlock senv entry = some after) :
    db.blocks.add entry (numRctOuts entry) (senv.getBlockHash entry.bl) = some after.blocks := by
  obtain ⟨-, -, added⟩ := Option.bind_eq_some_iff.mp added
  obtain ⟨stored, txsAdded, added⟩ := Option.bind_eq_some_iff.mp added
  obtain ⟨blocks, blockAdded, added⟩ := Option.bind_eq_some_iff.mp added
  rw [← Option.some.inj added, ← addTransactions_blocks txsAdded]
  exact blockAdded

theorem popBlock_blocks (popped : db.popBlock senv = some (block, txs, after)) :
    db.blocks.remove = some (block, after.blocks) := by
  obtain ⟨⟨top, blocks⟩, removed, popped⟩ := Option.bind_eq_some_iff.mp popped
  obtain ⟨⟨read, middle⟩, txsPopped, popped⟩ := Option.bind_eq_some_iff.mp popped
  obtain ⟨final, minerRemoved, popped⟩ := Option.bind_eq_some_iff.mp popped
  rw [Option.some.injEq] at popped
  obtain ⟨rfl, -, rfl⟩ := popped
  rw [removeTransaction_blocks minerRemoved, popTransactions_blocks txsPopped, removed]

theorem tablesOf_addBlock {chain : List BlockEntry} (tables : tablesOf senv chain = some db.blocks)
    (added : db.addBlock senv entry = some after) :
    tablesOf senv (chain ++ [entry]) = some after.blocks :=
  tablesOf_concat.mpr ⟨db.blocks, tables, addBlock_blocks added⟩

theorem tablesOf_popBlock {chain : List BlockEntry}
    (tables : tablesOf senv (chain ++ [entry]) = some db.blocks)
    (popped : db.popBlock senv = some (block, txs, after)) :
    tablesOf senv chain = some after.blocks := by
  obtain ⟨before, below, added⟩ := tablesOf_concat.mp tables
  obtain ⟨cumRct, addedBlock⟩ := BlockTables.add_added added
  have removed := popBlock_blocks popped
  rw [addedBlock.remove, Option.some.injEq, Prod.mk.injEq] at removed
  rw [below, removed.2]

def popBlocks (senv : StorageEnv) : Nat → Lmdb → Option Lmdb
  | 0, db => some db
  | count + 1, db => (db.popBlock senv).bind fun popped => popBlocks senv count popped.2.2

theorem tablesOf_popBlocks {dropped : List BlockEntry}
    (tables : tablesOf senv (kept ++ dropped) = some db.blocks)
    (popped : popBlocks senv dropped.length db = some after) :
    tablesOf senv kept = some after.blocks := by
  induction dropped using reverseRecOn generalizing db with
  | nil =>
    rw [← Option.some.inj popped, ← append_nil kept]
    exact tables
  | append_singleton lower last ih =>
    rw [length_append] at popped
    obtain ⟨⟨block, txs, middle⟩, first, later⟩ := Option.bind_eq_some_iff.mp popped
    rw [← append_assoc] at tables
    exact ih (tablesOf_popBlock tables first) later

theorem tablesOf_addBlocks {added : List BlockEntry} (tables : tablesOf senv kept = some db.blocks)
    (attached : added.foldlM (addBlock senv) db = some after) :
    tablesOf senv (kept ++ added) = some after.blocks := by
  induction added generalizing kept db with
  | nil =>
    rw [append_nil, ← Option.some.inj attached]
    exact tables
  | cons entry rest ih =>
    obtain ⟨middle, first, later⟩ := Option.bind_eq_some_iff.mp attached
    rw [append_cons]
    exact ih (tablesOf_addBlock tables first) later

end Steps

theorem LmdbRun.tablesOf_eq {seed : Nat} {permitted : BlockEntry → Prop} {db : Lmdb}
    (run : LmdbRun senv seed permitted chain db) : tablesOf senv chain = some db.blocks := by
  induction run with
  | empty => rfl
  | add chain db entry after run allowed added ih => exact tablesOf_addBlock ih added
  | pop chain entry db block txs after run popped ih => exact tablesOf_popBlock ih popped

structure BlockInfos (senv : StorageEnv) (chain : List BlockEntry)
    (tables : BlockTables) : Prop where
  height : tables.height = chain.length
  info : ∀ height entry, chain[height]? = some entry →
    ∃ info, tables.info.find? height = some info ∧ info.hash = senv.getBlockHash entry.bl ∧
      info.cumRct = rctAt chain height
  heights : ∀ id height, tables.heights.find? id = some height →
    ∃ entry, chain[height]? = some entry ∧ senv.getBlockHash entry.bl = id
  linked : chain.IsChain fun lower upper => upper.bl.prevId = senv.getBlockHash lower.bl

theorem add_followsTop {numRctOuts : Nat} {blockHash : Hash}
    (added : tables.add entry numRctOuts blockHash = some after) :
    tables.height = 0 ∨ tables.heights.find? entry.bl.prevId = some (tables.height - 1) := by
  obtain ⟨heights, -, added⟩ := Option.bind_eq_some_iff.mp added
  obtain ⟨_, follows, _⟩ := Option.bind_eq_some_iff.mp added
  have top := (Option.guard_eq_some' _).mp follows
  simpa [BlockTables.followsTop] using top

theorem BlockInfos.cumRct_eq {cumRct : Nat} (infos : BlockInfos senv chain tables)
    (counted : tables.cumRct entry.bl (numRctOuts entry) = some cumRct) :
    cumRct = storedRct (chain ++ [entry]).reverse := by
  rw [reverse_append, reverse_singleton, singleton_append, storedRct]
  unfold BlockTables.cumRct at counted
  split_ifs at counted with early first
  · rw [if_pos early, ← Option.some.inj counted]
  · rw [if_neg early]
    rw [infos.height] at first counted
    have lt : chain.length - 1 < chain.length := by omega
    obtain ⟨info, found, -, previous⟩ := infos.info _ _ (getElem?_eq_getElem lt)
    rw [found, Option.map_some, Option.some.injEq] at counted
    rw [← counted, previous, rctAt, Nat.sub_add_cancel (by omega), take_length]

theorem BlockInfos.add (infos : BlockInfos senv chain tables)
    (added : tables.add entry (numRctOuts entry) (senv.getBlockHash entry.bl) = some after) :
    BlockInfos senv (chain ++ [entry]) after := by
  obtain ⟨cumRct, addedBlock⟩ := BlockTables.add_added added
  refine ⟨?_, ?_, ?_, ?_⟩
  · rw [addedBlock.height, infos.height, length_append, length_singleton]
  · intro height other found
    rw [find?_insertNew (append_insertNew addedBlock.info), infos.height]
    rcases lt_trichotomy height chain.length with below | rfl | above
    · rw [getElem?_append_left below] at found
      rw [if_neg (by omega), rctAt, take_append_of_le_length below]
      exact infos.info height other found
    · rw [getElem?_concat_length, Option.some.injEq] at found
      rw [if_pos rfl, ← found]
      refine ⟨_, rfl, rfl, ?_⟩
      rw [rctAt, take_of_length_le (by simp)]
      exact infos.cumRct_eq addedBlock.counted
    · rw [getElem?_eq_none (by simp; omega)] at found
      simp at found
  · intro id height found
    rw [find?_insertNew addedBlock.heights, infos.height] at found
    split_ifs at found with same
    · refine ⟨entry, ?_, same.symm⟩
      rw [← Option.some.inj found, getElem?_concat_length]
    · obtain ⟨other, below, named⟩ := infos.heights id height found
      refine ⟨other, ?_, named⟩
      rw [List.getElem?_append_left (List.getElem?_eq_some_iff.mp below).choose, below]
  · rw [isChain_append]
    refine ⟨infos.linked, .singleton _, ?_⟩
    intro lower last upper first
    simp at first
    rw [getLast?_eq_getElem?] at last
    rw [← first]
    rcases add_followsTop added with empty | follows
    · rw [infos.height] at empty
      rw [length_eq_zero_iff.mp empty] at last
      simp at last
    · rw [infos.height] at follows
      obtain ⟨other, found, named⟩ := infos.heights _ _ follows
      rw [last, Option.some.injEq] at found
      rw [found, named]

theorem blockInfos_of_tablesOf (stored : tablesOf senv chain = some tables) :
    BlockInfos senv chain tables := by
  induction chain using reverseRecOn generalizing tables with
  | nil =>
    rw [← Option.some.inj stored]
    exact ⟨rfl, by simp, by simp [BlockTables.empty], .nil⟩
  | append_singleton chain entry ih =>
    obtain ⟨before, below, added⟩ := tablesOf_concat.mp stored
    exact (ih below).add added

def Identified (senv : StorageEnv) (known : BlockEntry → Prop) : Prop :=
  ∀ entry other, known entry → known other →
    senv.getBlockHash entry.bl = senv.getBlockHash other.bl → entry.contents = other.contents

theorem BlockInfos.contents_eq {known : BlockEntry → Prop} (identified : Identified senv known)
    {leftTables rightTables : BlockTables} (leftInfos : BlockInfos senv left leftTables)
    (rightInfos : BlockInfos senv right rightTables) (leftKnown : ∀ entry ∈ left, known entry)
    (rightKnown : ∀ entry ∈ right, known entry) {other : BlockEntry}
    (leftFound : left[height]? = some entry) (rightFound : right[height]? = some other)
    (same : senv.getBlockHash entry.bl = senv.getBlockHash other.bl) :
    (left.take (height + 1)).map contents =
      (right.take (height + 1)).map contents := by
  obtain ⟨leftInside, leftEq⟩ := List.getElem?_eq_some_iff.mp leftFound
  obtain ⟨rightInside, rightEq⟩ := List.getElem?_eq_some_iff.mp rightFound
  have injective : Set.InjOn
      (fun contents : Block × List Transaction => senv.getBlockHash contents.1)
      {contents | ∃ entry, known entry ∧ entry.contents = contents} := by
    rintro _ ⟨first, firstKnown, rfl⟩ _ ⟨second, secondKnown, rfl⟩ named
    exact identified first second firstKnown secondKnown named
  rw [map_take, map_take]
  refine @LinkedPaths.take_eq_of_id_eq _ Hash (fun contents => senv.getBlockHash _)
    (fun contents => contents.1.prevId) _ injective _ _ ?_ ?_ ?_ ?_ _
    (by rwa [length_map]) (by rwa [length_map]) ?_
  · exact (isChain_map _).mpr leftInfos.linked
  · exact (isChain_map _).mpr rightInfos.linked
  · rw [forall_mem_map]
    exact fun entry mem => ⟨entry, leftKnown entry mem, rfl⟩
  · rw [forall_mem_map]
    exact fun entry mem => ⟨entry, rightKnown entry mem, rfl⟩
  · rw [getElem_map, getElem_map, leftEq, rightEq]
    exact same

theorem rctAt_eq {bound : Nat}
    (same : (left.take bound).map contents = (right.take bound).map contents)
    (below : height < bound) : rctAt left height = rctAt right height := by
  have cut := congrArg (take (height + 1)) same
  rw [← map_take, ← map_take, take_take, take_take, min_eq_left (by omega)] at cut
  apply storedRct_congr
  rw [map_reverse, map_reverse, cut]

end Lmdb

/-! ## The distribution of outputs over heights -/

inductive NetworkType where
  | mainnet
  | testnet
  | stagenet
  | fakechain
  | undefined
  deriving DecidableEq, Repr

def testnetHardForks : List HardForkEntry :=
  [⟨1, 1, 0, 1341378000⟩, ⟨16, 2, 0, 1341378001⟩]

def stagenetHardForks : List HardForkEntry :=
  [⟨1, 1, 0, 1341378000⟩, ⟨16, 2, 0, 1341378001⟩]

/-- The last one is an access past the end of an array. -/
inductive DistributionOutcome where
  | returned (startHeight : Nat) (distribution : List Nat) (base : Nat)
  | failed
  | threw
  | outOfBounds
  deriving DecidableEq, Repr

namespace Lmdb

def getBlockCumulativeRctOutputs (db : Lmdb) (heights : List Nat) : Option (List Nat) :=
  if heights.any fun height => db.height ≤ height then none
  else heights.mapM fun height => (db.blocks.info.find? height).map BlockInfo.cumRct

/-- The loop of `BlockchainLMDB::get_output_distribution`; `none` is an access past the counts. -/
def countOutputs (fromHeight toHeight : Nat) : List Nat → List Nat → Nat → Option (List Nat × Nat)
  | [], distribution, base => some (distribution, base)
  | height :: rest, distribution, base =>
    if fromHeight ≤ height ∧ distribution.length ≤ height - fromHeight then none
    else
      let counted := if fromHeight ≤ height then distribution.modify (height - fromHeight) (· + 1)
        else distribution
      let based := if fromHeight ≤ height then base else base + 1
      if 0 < toHeight ∧ toHeight < height then some (counted, based)
      else countOutputs fromHeight toHeight rest counted based

def runningTotals (total : Nat) : List Nat → List Nat
  | [] => []
  | count :: rest => (total + count) :: runningTotals (total + count) rest

def getOutputDistribution (db : Lmdb) (amount fromHeight toHeight : Nat) : DistributionOutcome :=
  if db.height ≤ fromHeight then .failed
  else
    match countOutputs fromHeight toHeight ((db.outputs.rowsOf amount).map fun row => row.2.height)
        (replicate (db.height - fromHeight) 0) 0 with
    | none => .outOfBounds
    | some (counts, base) => .returned fromHeight (runningTotals base counts) 0

/-- `Blockchain::get_output_distribution` from the start height on; `reserve` throws when its
unsigned argument wraps. -/
def outputDistributionFrom (db : Lmdb)
    (amount fromHeight toHeight eraHeight : Nat) : DistributionOutcome :=
  if 0 < toHeight ∧ toHeight < fromHeight then .failed
  else
    let startHeight := if eraHeight < fromHeight then fromHeight else eraHeight
    if db.height = 0 then .failed
    else if db.height ≤ startHeight ∨ db.height ≤ toHeight then .failed
    else if amount = 0 then
      if toHeight + 1 < startHeight then .threw
      else
        let realStartHeight := if 0 < startHeight then startHeight - 1 else startHeight
        match db.getBlockCumulativeRctOutputs
            (range' realStartHeight (toHeight + 1 - realStartHeight)) with
        | none => .threw
        | some counts =>
          if 0 < startHeight then
            match counts with
            | [] => .outOfBounds
            | base :: rest => .returned startHeight rest base
          else .returned startHeight counts 0
    else db.getOutputDistribution amount startHeight toHeight

def eraHeight (hardForks : List HardForkEntry) : Option Nat :=
  hardForks[3]?.map HardForkEntry.height

end Lmdb

def Blockchain.getOutputDistribution (nettype : NetworkType) (db : Lmdb)
    (amount fromHeight toHeight : Nat) : DistributionOutcome :=
  let fromEra := db.outputDistributionFrom amount fromHeight toHeight
  let fromTable := fun hardForks => match Lmdb.eraHeight hardForks with
    | none => DistributionOutcome.outOfBounds
    | some height => fromEra height
  if amount = 0 then
    match nettype with
    | .stagenet => fromTable stagenetHardForks
    | .testnet => fromTable testnetHardForks
    | .mainnet => fromTable mainnetHardForks
    | .fakechain => fromEra 0
    | .undefined => .failed
  else fromEra 0

namespace Lmdb

/-- One stored count for each height from the start on, and the count below the start. -/
def Serves (db : Lmdb) (fromHeight toHeight : Nat) (outcome : DistributionOutcome) : Prop :=
  ∃ startHeight distribution base, outcome = .returned startHeight distribution base ∧
    fromHeight ≤ startHeight ∧
    distribution.map some = (range' startHeight (toHeight + 1 - startHeight)).map
        (fun height => (db.blocks.info.find? height).map BlockInfo.cumRct) ∧
    some base = if startHeight = 0 then some 0
      else (db.blocks.info.find? (startHeight - 1)).map BlockInfo.cumRct

section Chain

variable {senv : StorageEnv} {chain : List BlockEntry} {db : Lmdb} {fromHeight toHeight : Nat}

def rctRange (chain : List BlockEntry) (fromHeight toHeight : Nat) : List Nat :=
  (range' fromHeight (toHeight + 1 - fromHeight)).map (rctAt chain)

def rctBase (chain : List BlockEntry) (fromHeight : Nat) : Nat :=
  if fromHeight = 0 then 0 else rctAt chain (fromHeight - 1)

section

variable (infos : BlockInfos senv chain db.blocks)

include infos

theorem BlockInfos.cumRct_find? {height : Nat} (lt : height < chain.length) :
    (db.blocks.info.find? height).map BlockInfo.cumRct = some (rctAt chain height) := by
  obtain ⟨info, found, -, counted⟩ := infos.info height _ (getElem?_eq_getElem lt)
  rw [found, Option.map_some, counted]

theorem BlockInfos.getBlockCumulativeRctOutputs_eq {heights : List Nat}
    (lt : ∀ height ∈ heights, height < chain.length) :
    db.getBlockCumulativeRctOutputs heights = some (heights.map (rctAt chain)) := by
  have below : ¬(heights.any fun height => db.height ≤ height) = true := by
    rw [any_eq_true]
    rintro ⟨height, mem, above⟩
    have := lt height mem
    rw [decide_eq_true_eq, Lmdb.height, infos.height] at above
    omega
  rw [getBlockCumulativeRctOutputs, if_neg below]
  clear below
  induction heights with
  | nil => rfl
  | cons height rest ih =>
    rw [forall_mem_cons] at lt
    rw [mapM_cons, infos.cumRct_find? lt.1, ih lt.2]
    rfl

theorem BlockInfos.fakechain_eq (below : toHeight < chain.length) :
    db.outputDistributionFrom 0 fromHeight toHeight 0 =
      if 0 < toHeight ∧ toHeight < fromHeight then .failed
      else if chain.length ≤ fromHeight then .failed
      else if toHeight + 1 < fromHeight then .threw
      else .returned fromHeight (rctRange chain fromHeight toHeight)
        (rctBase chain fromHeight) := by
  have height : db.height = chain.length := infos.height
  have start : (if 0 < fromHeight then fromHeight else 0) = fromHeight := by split <;> omega
  unfold outputDistributionFrom
  dsimp only
  rw [start, height, if_neg (show ¬chain.length = 0 by omega)]
  congr 1
  by_cases above : chain.length ≤ fromHeight
  · rw [if_pos (.inl above), if_pos above]
  rw [if_neg (by omega), if_neg above, if_pos rfl]
  by_cases wraps : toHeight + 1 < fromHeight
  · rw [if_pos wraps, if_pos wraps]
  rw [if_neg wraps, if_neg wraps, infos.getBlockCumulativeRctOutputs_eq]
  · rcases eq_zero_or_pos fromHeight with rfl | pos
    · rfl
    · obtain ⟨count, length⟩ : ∃ count, toHeight + 1 - (fromHeight - 1) = count + 1 :=
        ⟨toHeight + 1 - fromHeight, by omega⟩
      rw [if_pos pos, length, range'_succ, map_cons]
      dsimp only
      rw [if_pos pos, rctBase, if_neg (by omega), Nat.sub_add_cancel pos]
      congr 3
      omega
  · intro other mem
    rw [mem_range'_1] at mem
    split at mem <;> omega

theorem BlockInfos.serves_fakechain (ordered : fromHeight ≤ toHeight)
    (below : toHeight < chain.length) :
    Serves db fromHeight toHeight
      (Blockchain.getOutputDistribution .fakechain db 0 fromHeight toHeight) := by
  have served : Blockchain.getOutputDistribution .fakechain db 0 fromHeight
      toHeight = .returned fromHeight (rctRange chain fromHeight toHeight)
        (rctBase chain fromHeight) := by
    have closed := @BlockInfos.fakechain_eq senv chain db fromHeight toHeight infos below
    rw [if_neg (by omega), if_neg (by omega), if_neg (by omega)] at closed
    exact closed
  refine ⟨fromHeight, _, _, served, le_rfl, ?_, ?_⟩
  · rw [rctRange, map_map]
    apply map_congr_left
    intro height mem
    rw [mem_range'_1] at mem
    rw [infos.cumRct_find? (by omega)]
    rfl
  · rw [rctBase]
    split
    · rfl
    · rw [infos.cumRct_find? (by omega)]

end

end Chain

/-- For ranges below the top, a network the switch knows is served without an access past the end
exactly if it is the fake chain. -/
theorem LmdbRun.serves_iff {senv : StorageEnv} {pruningSeed : Nat} {permitted : BlockEntry → Prop}
    {chain : List BlockEntry} {db : Lmdb} (run : LmdbRun senv pruningSeed permitted chain db)
    {nettype : NetworkType} (handled : nettype ≠ .undefined) {fromHeight toHeight : Nat}
    (ordered : fromHeight ≤ toHeight) (below : toHeight < db.height) : Serves db fromHeight toHeight
        (Blockchain.getOutputDistribution nettype db 0 fromHeight toHeight) ↔
      nettype = .fakechain := by
  have infos := blockInfos_of_tablesOf run.tablesOf_eq
  have height : db.height = chain.length := infos.height
  have unserved : ¬Serves db fromHeight toHeight .outOfBounds := by
    rintro ⟨startHeight, distribution, base, returned, -⟩
    cases returned
  cases nettype with
  | mainnet | testnet | stagenet => exact iff_of_false unserved (by simp)
  | fakechain => exact iff_of_true (infos.serves_fakechain ordered (height ▸ below)) rfl
  | undefined => exact absurd rfl handled

theorem shieldedSpend_served : ∃ db,
    LmdbRun plainStorageEnv 0 (fun _ => True) [firstBlockWith shieldedSpend] db ∧
      Serves db 0 0 (Blockchain.getOutputDistribution .fakechain db 0 0 0) := by
  have run : ∃ db, LmdbRun plainStorageEnv 0 (fun _ => True) [firstBlockWith shieldedSpend] db ∧
      0 < db.height :=
    ⟨_, .add [] _ _ _ .empty trivial rfl, by decide⟩
  obtain ⟨db, run, below⟩ := run
  exact ⟨db, run, (run.serves_iff (by decide) le_rfl below).mpr rfl⟩

theorem twoSevens_mainnet_out_of_bounds :
    ∃ db, LmdbRun plainStorageEnv 0 (fun _ => True) [twoSevens] db ∧ 0 < db.height ∧
      Blockchain.getOutputDistribution .mainnet db 0 0 0 = .outOfBounds :=
  ⟨_, .add [] _ twoSevens _ .empty trivial rfl, by decide, rfl⟩

end Lmdb

/-! ## Serving distributions from a cache -/

open WrappedArithmetic

structure OutputDistributionData where
  distribution : List Nat
  startHeight : Nat
  base : Nat
  deriving DecidableEq, Repr

/-- The last one is an access past the end in a callback. -/
inductive RpcOutcome where
  | returned (data : OutputDistributionData)
  | failed
  | threw
  | outOfBounds
  deriving DecidableEq, Repr

namespace RpcHandler

structure DistributionCache where
  cachedDistribution : List Nat
  cachedFrom : Nat
  cachedTo : Nat
  cachedStartHeight : Nat
  cachedBase : Nat
  cachedM10Hash : Hash
  cachedTopHash : Hash
  cached : Bool
  deriving DecidableEq, Repr

def DistributionCache.init : DistributionCache :=
  ⟨[], 0, 0, 0, 0, nullHash, nullHash, false⟩

/-- A height without a block makes `get_hash` throw. -/
structure ChainReader where
  outputDistribution : Nat → Nat → Nat → DistributionOutcome
  getHash : Nat → Option Hash
  blockchainHeight : Nat

structure DistributionRequest where
  amount : Nat
  fromHeight : Nat
  toHeight : Nat
  cumulative : Bool

def processDistribution (cumulative : Bool) (startHeight : Nat)
    (distribution : List Nat) (base : Nat) : OutputDistributionData where
  distribution := if cumulative then distribution
    else List.zipWith (subMod 64) distribution (base :: distribution)
  startHeight := startHeight
  base := base

def resize (request : DistributionRequest) (startHeight : Nat)
    (distribution : List Nat) : List Nat :=
  if 0 < request.toHeight ∧ request.fromHeight ≤ request.toHeight then
    let offset := max request.fromHeight startHeight
    if offset ≤ request.toHeight ∧ request.toHeight - offset + 1 < distribution.length then
      distribution.take (request.toHeight - offset + 1)
    else distribution
  else distribution

variable (reader : ChainReader) (request : DistributionRequest) (cache : DistributionCache)

/-- The cache is replaced field by field, so an exception of `get_hash` leaves it half replaced.
-/
def finish (startHeight : Nat) (counts : List Nat) (base : Nat) : RpcOutcome × DistributionCache :=
  let distribution := resize request startHeight counts
  let data := processDistribution request.cumulative startHeight distribution base
  if request.amount = 0 then
    let begun := { cache with
        cachedFrom := request.fromHeight
        cachedTo := request.toHeight }
    match reader.getHash request.toHeight with
    | none => (.threw, begun)
    | some topHash =>
      match if 10 ≤ request.toHeight then reader.getHash (request.toHeight - 10)
        else
          some nullHash with
      | none => (.threw, { begun with cachedTopHash := topHash })
      | some m10Hash =>
        (.returned data, ⟨distribution, request.fromHeight, request.toHeight, startHeight,
            base, m10Hash, topHash, true⟩)
  else (.returned data, cache)

def fetch : RpcOutcome × DistributionCache :=
  match reader.outputDistribution request.amount request.fromHeight request.toHeight with
  | .returned startHeight distribution base =>
    finish reader request cache startHeight distribution base
  | .failed => (.failed, cache)
  | .threw => (.threw, cache)
  | .outOfBounds => (.outOfBounds, cache)

def extend : RpcOutcome × DistributionCache :=
  match reader.outputDistribution request.amount (cache.cachedTo + 1) request.toHeight with
  | .returned _ newDistribution _ =>
    finish reader request cache cache.cachedStartHeight
      (cache.cachedDistribution ++ newDistribution) cache.cachedBase
  | .failed => (.failed, cache)
  | .threw => (.threw, cache)
  | .outOfBounds => (.outOfBounds, cache)

def DistributionCache.covers (request : DistributionRequest) : Bool :=
  cache.cached && request.amount == 0 && cache.cachedFrom == request.fromHeight

/-- The last ten entries may be given up, if the block below them is still there. -/
def shorten : RpcOutcome × DistributionCache :=
  if cache.covers request ∧ 10 ≤ subMod 64 cache.cachedTo cache.cachedFrom ∧
      subMod 64 cache.cachedTo 10 < request.toHeight then
    match reader.getHash (subMod 64 cache.cachedTo 10) with
    | none => (.threw, cache)
    | some hash10 =>
      if hash10 = cache.cachedM10Hash then
        let shortened := { cache with
            cachedTo := subMod 64 cache.cachedTo 10
            cachedTopHash := hash10
            cachedM10Hash := nullHash }
        if cache.cachedDistribution.length < 10 then (.failed, shortened)
        else
          extend reader request { shortened with
              cachedDistribution := cache.cachedDistribution.take
                (cache.cachedDistribution.length - 10) }
      else fetch reader request cache
  else fetch reader request cache

def getOutputDistribution : RpcOutcome × DistributionCache :=
  match if cache.cachedTo < reader.blockchainHeight then reader.getHash cache.cachedTo
    else
      some nullHash with
  | none => (.threw, cache)
  | some topHash =>
    if cache.covers request ∧ cache.cachedTo = request.toHeight ∧ cache.cachedTopHash = topHash then
      (.returned (processDistribution request.cumulative
        cache.cachedStartHeight cache.cachedDistribution cache.cachedBase),
        cache)
    else if cache.covers request ∧ cache.cachedTo < request.toHeight ∧
        topHash = cache.cachedTopHash then
      extend reader request cache
    else shorten reader request cache

def readerOf (nettype : NetworkType) (db : Lmdb) : ChainReader where
  outputDistribution := Blockchain.getOutputDistribution nettype db
  getHash height := (db.blocks.info.find? height).map BlockInfo.hash
  blockchainHeight := db.height

section Reader

variable {reader : ChainReader} {request : DistributionRequest} {cache : DistributionCache}

def ChainReader.Readable (reader : ChainReader) : Prop :=
  ∀ height < reader.blockchainHeight, ∃ hash, reader.getHash height = some hash

def answer (reader : ChainReader) (request : DistributionRequest) : RpcOutcome :=
  match reader.outputDistribution request.amount request.fromHeight request.toHeight with
  | .returned startHeight distribution base =>
    .returned (processDistribution request.cumulative startHeight
      (resize request startHeight distribution) base)
  | .failed => .failed
  | .threw => .threw
  | .outOfBounds => .outOfBounds

structure Refilled (reader : ChainReader) (request : DistributionRequest)
    (startHeight : Nat) (counts : List Nat) (base : Nat) (after : DistributionCache) : Prop where
  distribution : after.cachedDistribution = resize request startHeight counts
  fromHeight : after.cachedFrom = request.fromHeight
  toHeight : after.cachedTo = request.toHeight
  startHeight : after.cachedStartHeight = startHeight
  base : after.cachedBase = base
  topHash : reader.getHash request.toHeight = some after.cachedTopHash
  m10Hash : if 10 ≤ request.toHeight then
      reader.getHash (request.toHeight - 10) = some after.cachedM10Hash
    else after.cachedM10Hash = nullHash

theorem finish_spec (readable : reader.Readable)
    (below : request.toHeight < reader.blockchainHeight) (start : Nat)
    (counts : List Nat) (base : Nat) :
    (finish reader request cache start counts base).1 =
        .returned (processDistribution request.cumulative start
          (resize request start counts) base) ∧ if request.amount = 0 then
        Refilled reader request start counts base (finish reader request cache start counts base).2
      else
        (finish reader request cache start counts base).2 = cache := by
  obtain ⟨topHash, top⟩ := readable _ below
  unfold finish
  split
  · rw [top]
    by_cases high : 10 ≤ request.toHeight
    · obtain ⟨m10Hash, m10⟩ := readable (request.toHeight - 10) (by omega)
      rw [if_pos high, m10]
      exact ⟨rfl, rfl, rfl, rfl, rfl, rfl, top, by rwa [if_pos high]⟩
    · rw [if_neg high]
      exact ⟨rfl, rfl, rfl, rfl, rfl, rfl, top, by rw [if_neg high]⟩
  · exact ⟨rfl, rfl⟩

theorem fetch_fst (readable : reader.Readable)
    (below : request.toHeight < reader.blockchainHeight) :
    (fetch reader request cache).1 = answer reader request := by
  unfold fetch answer
  split
  · rename_i start distribution base _
    exact (finish_spec readable below start distribution base).1
  all_goals rfl

theorem getOutputDistribution_uncovered (readable : reader.Readable)
    (uncovered : cache.covers request = false) :
    getOutputDistribution reader request cache = fetch reader request cache := by
  have top : ∃ topHash, (if cache.cachedTo < reader.blockchainHeight then
      reader.getHash cache.cachedTo else some nullHash) = some topHash := by
    split
    · rename_i lt
      exact readable _ lt
    · exact ⟨_, rfl⟩
  obtain ⟨topHash, top⟩ := top
  rw [getOutputDistribution, top]
  simp [uncovered, shorten]

theorem getOutputDistribution_init (readable : reader.Readable)
    (below : request.toHeight < reader.blockchainHeight) :
    (getOutputDistribution reader request .init).1 = answer reader request := by
  rw [getOutputDistribution_uncovered readable rfl, fetch_fst readable below]

end Reader

/-! ## What a cached distribution describes -/

open Lmdb Option

variable {senv : StorageEnv} {known : BlockEntry → Prop} {nettype : NetworkType}
  {chain past : List BlockEntry} {db : Lmdb} {tables : BlockTables} {request : DistributionRequest}
  {cache after : DistributionCache}

section Counts

variable {fromHeight toHeight : Nat}

theorem length_rctRange :
    (rctRange chain fromHeight toHeight).length = toHeight + 1 - fromHeight := by
  rw [rctRange, length_map, length_range']

theorem rctRange_append {middle : Nat} (first : fromHeight ≤ middle + 1)
    (second : middle ≤ toHeight) :
    rctRange chain fromHeight middle ++ rctRange chain (middle + 1) toHeight =
      rctRange chain fromHeight toHeight := by
  obtain ⟨count, split⟩ := Nat.exists_eq_add_of_le first
  rw [rctRange, rctRange, ← map_append, split,
    Nat.add_sub_cancel_left, range'_append_1]
  congr 2
  omega

section

variable {bound : Nat}
  (same : (past.take bound).map BlockEntry.contents = (chain.take bound).map BlockEntry.contents)

include same

theorem rctRange_eq (below : toHeight < bound) :
    rctRange past fromHeight toHeight = rctRange chain fromHeight toHeight := by
  apply map_congr_left
  intro height mem
  rw [mem_range'_1] at mem
  exact rctAt_eq same (by omega)

theorem rctBase_eq (below : fromHeight ≤ bound) :
    rctBase past fromHeight = rctBase chain fromHeight := by
  unfold rctBase
  split
  · rfl
  · exact rctAt_eq same (by omega)

end

end Counts

def hashAt (senv : StorageEnv) (chain : List BlockEntry) (height : Nat) : Option Hash :=
  chain[height]?.map fun entry => senv.getBlockHash entry.bl

theorem getHash_readerOf (infos : BlockInfos senv chain db.blocks)
    {height : Nat} (lt : height < chain.length) :
    (readerOf nettype db).getHash height = hashAt senv chain height := by
  obtain ⟨info, found, named, -⟩ := infos.info height _ (getElem?_eq_getElem lt)
  rw [hashAt, getElem?_eq_getElem lt, map_some, ← named]
  change (db.blocks.info.find? height).map BlockInfo.hash = _
  rw [found, map_some]

theorem readable_readerOf (infos : BlockInfos senv chain db.blocks) :
    (readerOf nettype db).Readable := by
  intro height below
  have lt : height < chain.length := by
    rw [← infos.height]
    exact below
  rw [getHash_readerOf infos lt, hashAt, getElem?_eq_getElem lt]
  exact ⟨_, rfl⟩

theorem blockchainHeight_eq (infos : BlockInfos senv chain db.blocks) :
    (readerOf nettype db).blockchainHeight = chain.length :=
  infos.height

/-- A range that is not empty, or the empty one above the genesis block. -/
def Reported (fromHeight toHeight : Nat) : Prop :=
  fromHeight ≤ toHeight ∨ fromHeight = 1 ∧ toHeight = 0

structure Describes (senv : StorageEnv) (chain : List BlockEntry)
    (cache : DistributionCache) : Prop where
  inside : cache.cachedTo < chain.length
  reported : Reported cache.cachedFrom cache.cachedTo
  fits : cache.cachedTo < 2 ^ 64
  top : hashAt senv chain cache.cachedTo = some cache.cachedTopHash
  startHeight : cache.cachedStartHeight = cache.cachedFrom
  distribution : cache.cachedDistribution = rctRange chain cache.cachedFrom cache.cachedTo
  base : cache.cachedBase = rctBase chain cache.cachedFrom

def KeepsM10 (senv : StorageEnv) (chain : List BlockEntry) (cache : DistributionCache) : Prop :=
  if 10 ≤ cache.cachedTo then hashAt senv chain (cache.cachedTo - 10) = some cache.cachedM10Hash
  else cache.cachedM10Hash = nullHash

/-- The cache of a node with the given chain: it describes some chain of known
blocks. -/
structure Tracks (senv : StorageEnv) (known : BlockEntry → Prop)
    (nettype : NetworkType) (chain : List BlockEntry) (cache : DistributionCache) : Prop where
  network : nettype = .fakechain
  current : cache.cachedTo < cache.cachedFrom → 1 < chain.length
  past : ∃ past tables, BlockInfos senv past tables ∧
    (∀ entry ∈ past, known entry) ∧ Describes senv past cache ∧ KeepsM10 senv past cache

theorem Describes.transfer (identified : Identified senv known)
    (describes : Describes senv past cache) (pastInfos : BlockInfos senv past tables)
    (pastKnown : ∀ entry ∈ past, known entry) (infos : BlockInfos senv chain db.blocks)
    (chainKnown : ∀ entry ∈ chain, known entry)
    (found : hashAt senv chain cache.cachedTo = some cache.cachedTopHash) :
    Describes senv chain cache := by
  obtain ⟨entry, lt, named⟩ := map_eq_some_iff.mp describes.top
  obtain ⟨other, otherInside, otherNamed⟩ := map_eq_some_iff.mp found
  have same := pastInfos.contents_eq identified infos pastKnown chainKnown lt
    otherInside (named.trans otherNamed.symm)
  refine ⟨(List.getElem?_eq_some_iff.mp otherInside).choose, describes.reported,
    describes.fits, found, describes.startHeight, ?_, ?_⟩
  · rw [describes.distribution, rctRange_eq same (Nat.lt_succ_self _)]
  · have reported := describes.reported
    rw [describes.base, rctBase_eq same (by unfold Reported at reported; omega)]

theorem Describes.shorten (describes : Describes senv chain cache)
    (keeps : KeepsM10 senv chain cache) (long : cache.cachedFrom + 10 ≤ cache.cachedTo) :
    10 ≤ cache.cachedDistribution.length ∧ Describes senv chain { cache with
        cachedTo := cache.cachedTo - 10
        cachedTopHash := cache.cachedM10Hash
        cachedM10Hash := nullHash
        cachedDistribution := cache.cachedDistribution.take
          (cache.cachedDistribution.length - 10) } := by
  have lt := describes.inside
  have fits := describes.fits
  have length : cache.cachedDistribution.length = cache.cachedTo + 1 - cache.cachedFrom := by
    rw [describes.distribution, length_rctRange]
  rw [KeepsM10, if_pos (by omega)] at keeps
  refine ⟨by omega, ?_, .inl ?_, ?_, keeps, describes.startHeight, ?_, describes.base⟩
  · exact lt_of_le_of_lt (Nat.sub_le _ _) lt
  · exact Nat.le_sub_of_add_le long
  · exact lt_of_le_of_lt (Nat.sub_le _ _) fits
  · dsimp only
    have parts := @rctRange_append chain cache.cachedFrom cache.cachedTo
      (cache.cachedTo - 10) (by omega) (by omega)
    rw [length]
    conv_lhs => rw [describes.distribution, ← parts]
    rw [take_left']
    rw [length_rctRange]
    omega

section Calls

variable (infos : BlockInfos senv chain db.blocks) (chainKnown : ∀ entry ∈ chain, known entry)
  (below : request.toHeight < chain.length) (fits : request.toHeight < 2 ^ 64)

include infos

theorem fakechain_outputDistribution (amountZero : request.amount = 0)
    {fromHeight : Nat} (below : request.toHeight < chain.length) :
    (readerOf .fakechain db).outputDistribution request.amount fromHeight request.toHeight =
      if 0 < request.toHeight ∧ request.toHeight < fromHeight then .failed
      else if chain.length ≤ fromHeight then .failed
      else if request.toHeight + 1 < fromHeight then .threw
      else .returned fromHeight (rctRange chain fromHeight request.toHeight)
        (rctBase chain fromHeight) := by
  rw [amountZero]
  exact infos.fakechain_eq below

omit infos in
theorem resize_rctRange : resize request request.fromHeight
    (rctRange chain request.fromHeight request.toHeight) =
      rctRange chain request.fromHeight request.toHeight := by
  unfold resize
  rw [length_rctRange]
  split
  · rw [if_neg (by omega)]
  · rfl

theorem answer_fakechain (amountZero : request.amount = 0)
    (reported : Reported request.fromHeight request.toHeight)
    (below : request.toHeight < chain.length) (lt : request.fromHeight < chain.length) :
    answer (readerOf .fakechain db) request =
      .returned (processDistribution request.cumulative request.fromHeight
        (rctRange chain request.fromHeight request.toHeight)
        (rctBase chain request.fromHeight)) := by
  unfold Reported at reported
  rw [answer, fakechain_outputDistribution infos amountZero below,
    if_neg (by omega), if_neg (by omega), if_neg (by omega)]
  dsimp only
  rw [resize_rctRange]

include chainKnown below fits

theorem Refilled.tracks (reported : Reported request.fromHeight request.toHeight)
    (lt : request.fromHeight < chain.length)
    (refilled : Refilled (readerOf .fakechain db) request request.fromHeight
      (rctRange chain request.fromHeight request.toHeight)
      (rctBase chain request.fromHeight) after) : Tracks senv known .fakechain chain after := by
  have topHash := refilled.topHash
  have m10Hash := refilled.m10Hash
  rw [getHash_readerOf infos below] at topHash
  refine ⟨rfl, ?_, chain, db.blocks, infos, chainKnown, ?_, ?_⟩
  · rw [refilled.fromHeight]
    omega
  · refine ⟨?_, ?_, ?_, ?_, ?_, ?_, ?_⟩
    · rwa [refilled.toHeight]
    · rwa [refilled.fromHeight, refilled.toHeight]
    · rwa [refilled.toHeight]
    · rwa [refilled.toHeight]
    · rw [refilled.startHeight, refilled.fromHeight]
    · rw [refilled.distribution, resize_rctRange, refilled.fromHeight, refilled.toHeight]
    · rw [refilled.base, refilled.fromHeight]
  · rw [KeepsM10, refilled.toHeight]
    split
    · rename_i high
      rw [if_pos high, getHash_readerOf infos (by omega)] at m10Hash
      exact m10Hash
    · rename_i low
      rw [if_neg low] at m10Hash
      exact m10Hash

theorem fetch_tracks (tracks : cache.cached = true → Tracks senv known nettype chain cache) :
    (fetch (readerOf nettype db) request cache).2.cached = true → Tracks senv known nettype chain
        (fetch (readerOf nettype db) request cache).2 := by
  have readable := @readable_readerOf senv nettype chain db infos
  have belowHeight : request.toHeight < (readerOf nettype db).blockchainHeight := by
    rwa [blockchainHeight_eq infos]
  unfold fetch
  split
  · rename_i start distribution base returned
    obtain ⟨-, done⟩ := @finish_spec _ request cache readable belowHeight start distribution base
    by_cases amountZero : request.amount = 0
    · rw [if_pos amountZero] at done
      intro _
      cases nettype with
      | mainnet | testnet | stagenet | undefined =>
        rw [amountZero] at returned
        cases returned
      | fakechain =>
        rw [fakechain_outputDistribution infos amountZero below] at returned
        split_ifs at returned with reversed outside wraps
        cases returned
        refine Refilled.tracks infos chainKnown below fits ?_ (by omega) done
        unfold Reported
        omega
    · rw [if_neg amountZero] at done
      rw [done]
      exact tracks
  all_goals exact tracks

theorem extend_spec (describes : Describes senv chain cache) (amountZero : request.amount = 0)
    (sameFrom : cache.cachedFrom = request.fromHeight)
    (higher : cache.cachedTo < request.toHeight) :
    (extend (readerOf .fakechain db) request cache).1 = answer (readerOf .fakechain db) request ∧
      Tracks senv known .fakechain chain (extend (readerOf .fakechain db) request cache).2 := by
  have readable := @readable_readerOf senv .fakechain chain db infos
  have belowHeight : request.toHeight < (readerOf .fakechain db).blockchainHeight := by
    rwa [blockchainHeight_eq infos]
  have reported := describes.reported
  unfold Reported at reported
  have ordered : request.fromHeight ≤ request.toHeight := by omega
  have joined : cache.cachedDistribution ++ rctRange chain (cache.cachedTo + 1) request.toHeight =
        rctRange chain request.fromHeight request.toHeight := by
    rw [describes.distribution, sameFrom]
    exact rctRange_append (by omega) (by omega)
  rw [extend, fakechain_outputDistribution infos amountZero below,
    if_neg (by omega), if_neg (by omega), if_neg (by omega)]
  dsimp only
  rw [joined, describes.startHeight, describes.base, sameFrom]
  obtain ⟨outcome, done⟩ := finish_spec readable belowHeight
    _ (rctRange chain _ _)
    (rctBase chain _)
  rw [if_pos amountZero] at done
  refine ⟨?_, Refilled.tracks infos chainKnown below fits (.inl ordered) (by omega) done⟩
  rw [outcome, answer_fakechain infos amountZero (.inl ordered) below (by omega), resize_rctRange]

variable (identified : Identified senv known)
  (notNull : ∀ entry, known entry → senv.getBlockHash entry.bl ≠ nullHash)

include identified notNull

theorem shorten_spec (covered : cache.covers request = true)
    (tracks : Tracks senv known nettype chain cache) :
    (shorten (readerOf nettype db) request cache).1 = answer (readerOf nettype db) request ∧
      ((shorten (readerOf nettype db) request cache).2.cached = true →
        Tracks senv known nettype chain (shorten (readerOf nettype db) request cache).2) := by
  obtain ⟨rfl, current, past, tables, pastInfos, pastKnown, describes, keeps⟩ := tracks
  have fetched : (fetch (readerOf .fakechain db) request cache).1 =
        answer (readerOf .fakechain db) request ∧
      ((fetch (readerOf .fakechain db) request cache).2.cached = true →
        Tracks senv known .fakechain chain (fetch (readerOf .fakechain db) request cache).2) :=
    ⟨fetch_fst (readable_readerOf infos) (by rwa [blockchainHeight_eq infos]),
      fetch_tracks infos chainKnown below fits fun _ =>
        ⟨rfl, current, past, tables, pastInfos, pastKnown, describes, keeps⟩⟩
  simp [DistributionCache.covers] at covered
  have cachedFits := describes.fits
  unfold shorten
  split
  · rename_i conditions
    obtain ⟨-, long, lower⟩ := conditions
    rcases describes.reported with ordered | ⟨one, zero⟩
    · rw [subMod_of_le cachedFits ordered] at long
      rw [subMod_of_le cachedFits (by omega)] at lower ⊢
      rw [getHash_readerOf infos (by omega)]
      split
      · rename_i missing
        rw [hashAt, getElem?_eq_getElem (by omega)] at missing
        cases missing
      · rename_i hash10 found
        split
        · rename_i same
          subst same
          obtain ⟨enough, shorter⟩ := describes.shorten keeps (by omega)
          rw [if_neg (by omega)]
          have extended := extend_spec infos chainKnown below fits
            (shorter.transfer identified pastInfos pastKnown infos chainKnown
              found) covered.1.2 covered.2 lower
          exact ⟨extended.1, fun _ => extended.2⟩
        · exact fetched
    · rw [zero] at lower ⊢
      rw [getHash_readerOf infos (by omega)]
      rw [KeepsM10, if_neg (by omega)] at keeps
      split
      · rename_i missing
        rw [hashAt, getElem?_eq_getElem (by omega)] at missing
        cases missing
      · rename_i hash10 found
        obtain ⟨entry, lt, named⟩ := map_eq_some_iff.mp found
        have present := notNull entry (chainKnown entry (mem_of_getElem? lt))
        rw [named] at present
        rw [keeps, if_neg present]
        exact fetched
  · exact fetched

theorem getOutputDistribution_spec
    (tracks : cache.cached = true → Tracks senv known nettype chain cache) :
    (getOutputDistribution (readerOf nettype db) request cache).1 =
        answer (readerOf nettype db) request ∧
      ((getOutputDistribution (readerOf nettype db) request cache).2.cached = true →
        Tracks senv known nettype chain
          (getOutputDistribution (readerOf nettype db) request cache).2) := by
  have readable := @readable_readerOf senv nettype chain db infos
  cases covered : cache.covers request with
  | false =>
    rw [getOutputDistribution_uncovered readable covered]
    exact ⟨fetch_fst readable (by rwa [blockchainHeight_eq infos]),
      fetch_tracks infos chainKnown below fits tracks⟩
  | true =>
    have flags := covered
    simp [DistributionCache.covers] at flags
    have tracked := tracks flags.1.1
    have shortened := shorten_spec infos chainKnown below fits identified notNull covered tracked
    obtain ⟨rfl, current, past, tables, pastInfos, pastKnown, describes, -⟩ := tracked
    unfold getOutputDistribution
    rw [blockchainHeight_eq infos]
    by_cases lt : cache.cachedTo < chain.length
    · rw [if_pos lt, getHash_readerOf infos lt]
      split
      · rename_i missing
        rw [hashAt, getElem?_eq_getElem lt] at missing
        cases missing
      · rename_i topHash found
        split
        · rename_i hit
          obtain ⟨-, sameTo, sameTop⟩ := hit
          have described := describes.transfer identified pastInfos pastKnown
            infos chainKnown (sameTop ▸ found)
          have reported := described.reported
          refine ⟨?_, tracks⟩
          rw [answer_fakechain infos flags.1.2 (by rwa [← flags.2, ← sameTo])
            below (by unfold Reported at reported; omega),
            described.distribution, described.base, described.startHeight,
            flags.2, sameTo]
        · split
          · rename_i extends_
            obtain ⟨-, higher, sameTop⟩ := extends_
            have extended := extend_spec infos chainKnown below fits
              (describes.transfer identified pastInfos pastKnown infos
                chainKnown (sameTop ▸ found)) flags.1.2 flags.2 higher
            exact ⟨extended.1, fun _ => extended.2⟩
          · exact shortened
    · rw [if_neg lt]
      dsimp only
      rw [if_neg (by omega), if_neg (by omega)]
      exact shortened

end Calls

/-! ## The cache of distributions is never stale -/

/-- Blocks are added, a reorganization replaces blocks, and a request is answered. -/
inductive DistributionRun (senv : StorageEnv) (pruningSeed : Nat)
    (nettype : NetworkType) (known : BlockEntry → Prop) :
    List BlockEntry → Lmdb → DistributionCache → Prop
  | start {chain : List BlockEntry} {db : Lmdb} (run : LmdbRun senv pruningSeed known chain db) :
      DistributionRun senv pruningSeed nettype known chain db .init
  | extend {chain : List BlockEntry} {db after : Lmdb}
      {cache : DistributionCache} {entry : BlockEntry}
      (before : DistributionRun senv pruningSeed nettype known chain db cache)
      (allowed : known entry) (added : db.addBlock senv entry = some after) :
      DistributionRun senv pruningSeed nettype known (chain ++ [entry]) after cache
  | reorganize {kept dropped added : List BlockEntry} {db middle after : Lmdb}
      {cache : DistributionCache}
      (before : DistributionRun senv pruningSeed nettype known (kept ++ dropped) db cache)
      (genesis : kept ≠ []) (popped : popBlocks senv dropped.length db =
        some middle)
      (replaced : added ≠ []) (allowed : ∀ entry ∈ added, known entry)
      (attached : added.foldlM (addBlock senv) middle = some after) :
      DistributionRun senv pruningSeed nettype known (kept ++ added) after cache
  | call {chain : List BlockEntry} {db : Lmdb} {cache : DistributionCache}
      (before : DistributionRun senv pruningSeed nettype known chain db cache)
      (request : DistributionRequest) (below : request.toHeight < db.height)
      (fits : request.toHeight < 2 ^ 64) :
      DistributionRun senv pruningSeed nettype known chain db
        (getOutputDistribution (readerOf nettype db) request cache).2

/-- The blocks of a node are those of its chain, and its cache describes a chain
it has had. -/
structure Consistent (senv : StorageEnv) (known : BlockEntry → Prop)
    (nettype : NetworkType) (chain : List BlockEntry) (db : Lmdb)
    (cache : DistributionCache) : Prop where
  tables : tablesOf senv chain = some db.blocks
  blocks : ∀ entry ∈ chain, known entry
  tracks : cache.cached = true → Tracks senv known nettype chain cache

theorem Tracks.of_long {other : List BlockEntry} (tracks : Tracks senv known nettype chain cache)
    (long : 1 < chain.length → 1 < other.length) : Tracks senv known nettype other cache :=
  ⟨tracks.network, fun empty => long (tracks.current empty), tracks.past⟩

section Runs

variable {pruningSeed : Nat} (identified : Identified senv known)
  (notNull : ∀ entry, known entry → senv.getBlockHash entry.bl ≠ nullHash)

include identified notNull

theorem DistributionRun.tablesTracked
    (run : DistributionRun senv pruningSeed nettype known chain db cache) :
    Consistent senv known nettype chain db cache := by
  induction run with
  | start run => exact ⟨run.tablesOf_eq, run.permitted_of_mem, by simp [DistributionCache.init]⟩
  | extend before allowed added ih =>
    refine ⟨tablesOf_addBlock ih.tables added, ?_, ?_⟩
    · intro other mem
      rcases mem_append.mp mem with prev | last
      · exact ih.blocks other prev
      · rw [mem_singleton.mp last]
        exact allowed
    · intro cached
      refine (ih.tracks cached).of_long fun long => ?_
      rw [length_append]
      omega
  | reorganize before genesis popped replaced allowed attached ih =>
    refine ⟨tablesOf_addBlocks (tablesOf_popBlocks ih.tables popped) attached, ?_, ?_⟩
    · intro other mem
      rcases mem_append.mp mem with prev | later
      · exact ih.blocks other (mem_append_left _ prev)
      · exact allowed other later
    · intro cached
      refine (ih.tracks cached).of_long fun _ => ?_
      have keptPos := length_pos_iff.mpr genesis
      have addedPos := length_pos_iff.mpr replaced
      rw [length_append]
      omega
  | call before request below fits ih =>
    have infos := blockInfos_of_tablesOf ih.tables
    exact ⟨ih.tables, ih.blocks, (getOutputDistribution_spec infos ih.blocks
      (infos.height ▸ below) fits identified notNull ih.tracks).2⟩

end Runs

def isSmallBlock (entry : BlockEntry) : Prop :=
  entry = twoSevens ∨ entry = doublyGenerated

theorem isSmallBlock_identified : Identified plainStorageEnv isSmallBlock := by
  rintro _ _ (rfl | rfl) (rfl | rfl) same
  · rfl
  · exact absurd same (by decide)
  · exact absurd same (by decide)
  · rfl

theorem isSmallBlock_notNull : ∀ entry, isSmallBlock entry →
    plainStorageEnv.getBlockHash entry.bl ≠ nullHash := by
  rintro _ (rfl | rfl)
  all_goals decide

end RpcHandler

end LodeChain

import LodeChain.CheckpointedBranches
import LodeChain.PrunedHeights

/-!
# Finding the split point with another node

A syncing node sends the ids of its last blocks, of ones at doubling distances and of its genesis
block.
-/

namespace LodeChain

namespace BlockchainDB

open List

/-- The values of `current_back_offset` in `get_short_chain_history`, below twice the height. -/
def backOffsets (sz i currentMultiplier currentBackOffset : Nat)
    (positive : 0 < currentMultiplier) : List Nat :=
  if currentBackOffset < sz then
    if i < 10 then
      currentBackOffset :: backOffsets sz (i + 1) currentMultiplier (currentBackOffset + 1) positive
    else
      currentBackOffset :: backOffsets sz (i + 1) (currentMultiplier * 2)
        (currentBackOffset + currentMultiplier * 2) (by omega)
  else []
termination_by sz - currentBackOffset

variable (db : BlockchainDB)

def getShortChainHistory (env : Env) : List Hash :=
  let sz := db.height
  let offsets := backOffsets sz 0 1 1 Nat.one_pos
  let genesisIncluded := offsets.any fun offset => sz - offset == 0
  if sz = 0 then []
  else
    offsets.map (fun offset => db.getBlockIdByHeight env (sz - offset)) ++
      if genesisIncluded then [] else [db.getBlockIdByHeight env 0]

/-- The overload of `find_blockchain_supplement` that looks for the split height. -/
def findSplitHeight (env : Env) (qblockIds : List Hash) : Option Nat :=
  if db.height = 0 ∨ qblockIds.getLast? ≠ some (db.getBlockIdByHeight env 0) then none
  else (qblockIds.find? (db.blockExists env)).map (db.getBlockHeight env)

structure ChainSupplement where
  hashes : List Hash
  weights : List Nat
  startHeight : Nat
  currentHeight : Nat
  deriving DecidableEq, Repr

def blocksIdsSynchronizingDefaultCount : Nat :=
  10000

def getBlockWeight (height : Nat) : Nat :=
  (db.blocks.map BlockEntry.blockWeight).getD height 0

def supplementHeights (stopHeight : Nat) : (room i : Nat) → List Nat
  | 0, _ => []
  | room + 1, i =>
    if i < stopHeight then i :: supplementHeights stopHeight room (i + 1)
    else []

/-- None when only a pruned version of the first block is there. -/
def supplementStop (currentHeight pruningSeed startHeight : Nat) (clipPruned : Bool) : Option Nat :=
  if clipPruned = false then some currentHeight
  else if startHeight < getNextUnprunedBlockHeight startHeight currentHeight pruningSeed then none
  else getNextPrunedBlockHeight startHeight currentHeight pruningSeed

/-- The overload of `find_blockchain_supplement` that collects ids, and weights. -/
def findBlockchainSupplement (env : Env) (pruningSeed : Nat)
    (qblockIds : List Hash) (wantWeights clipPruned : Bool) : Option ChainSupplement :=
  (db.findSplitHeight env qblockIds).bind fun startHeight =>
    (supplementStop db.height pruningSeed startHeight clipPruned).map fun stopHeight =>
      let heights := supplementHeights stopHeight blocksIdsSynchronizingDefaultCount startHeight
      { hashes := heights.map (db.getBlockIdByHeight env)
        weights := if wantWeights then heights.map db.getBlockWeight else []
        startHeight := startHeight
        currentHeight := db.height }

section Offsets

variable {sz i currentMultiplier currentBackOffset : Nat} {positive : 0 < currentMultiplier}

theorem mem_backOffsets {offset : Nat}
    (mem : offset ∈ backOffsets sz i currentMultiplier currentBackOffset positive) :
    currentBackOffset ≤ offset ∧ offset < sz := by
  fun_induction backOffsets with
  | case1 i multiplier first positive lt near ih =>
    obtain rfl | later := mem_cons.mp mem
    · exact ⟨le_rfl, lt⟩
    · exact ⟨by have := (ih later).1; omega, (ih later).2⟩
  | case2 i multiplier first positive lt far ih =>
    obtain rfl | later := mem_cons.mp mem
    · exact ⟨le_rfl, lt⟩
    · exact ⟨by have := (ih later).1; omega, (ih later).2⟩
  | case3 => simp at mem

theorem pairwise_backOffsets :
    (backOffsets sz i currentMultiplier currentBackOffset positive).Pairwise (· < ·) := by
  fun_induction backOffsets with
  | case1 i multiplier first positive inside near ih =>
    refine pairwise_cons.mpr ⟨?_, ih⟩
    intro later mem
    have bounds := mem_backOffsets mem
    omega
  | case2 i multiplier first positive inside far ih =>
    refine pairwise_cons.mpr ⟨?_, ih⟩
    intro later mem
    have bounds := mem_backOffsets mem
    omega
  | case3 => exact .nil

end Offsets

def historyHeights (sz : Nat) : List Nat :=
  (backOffsets sz 0 1 1 Nat.one_pos).map (sz - ·) ++ [0]

theorem historyHeights_pairwise (sz : Nat) : (historyHeights sz).Pairwise (· > ·) := by
  refine pairwise_append.mpr ⟨?_, pairwise_singleton _ _, ?_⟩
  · refine pairwise_map.mpr (pairwise_backOffsets.imp_of_mem ?_)
    intro lower upper lowerMember upperMember before
    have upperBounds := mem_backOffsets upperMember
    omega
  · intro height mem last lastMember
    obtain ⟨offset, offsetMember, rfl⟩ := mem_map.mp mem
    have bounds := mem_backOffsets offsetMember
    rw [mem_singleton] at lastMember
    omega

theorem historyHeights_head? (sz : Nat) : (historyHeights sz).head? = some (sz - 1) := by
  unfold historyHeights backOffsets
  by_cases lt : 1 < sz
  · simp [lt]
  · simp [lt]
    omega

theorem historyHeights_getLast? (sz : Nat) : (historyHeights sz).getLast? = some 0 :=
  getLast?_concat

theorem mem_historyHeights {sz height : Nat} (positive : 0 < sz)
    (mem : height ∈ historyHeights sz) : height < sz := by
  obtain lt | last := mem_append.mp mem
  · obtain ⟨offset, offsetMember, rfl⟩ := mem_map.mp lt
    have bounds := mem_backOffsets offsetMember
    omega
  · rw [mem_singleton] at last
    omega

theorem getShortChainHistory_eq (db : BlockchainDB) (env : Env) (positive : 0 < db.height) :
    db.getShortChainHistory env = (historyHeights db.height).map (db.getBlockIdByHeight env) := by
  have genesis : ((backOffsets db.height 0 1 1 one_pos).any
      fun offset => db.height - offset == 0) = false := by
    rw [any_eq_false]
    intro offset mem
    have bounds := mem_backOffsets mem
    rw [beq_iff_eq]
    omega
  simp only [getShortChainHistory, if_neg positive.ne', genesis, historyHeights,
    map_append, map_map]
  rfl

theorem supplementHeights_eq (stopHeight room i : Nat) :
    supplementHeights stopHeight room i = List.range' i (min room (stopHeight - i)) := by
  induction room generalizing i with
  | zero => simp [supplementHeights]
  | succ room ih =>
    rw [supplementHeights]
    split
    · rename_i lt
      rw [ih, show min (room + 1) (stopHeight - i) =
        min room (stopHeight - (i + 1)) + 1 by omega, List.range'_succ]
    · rename_i outside
      rw [Nat.sub_eq_zero_of_le (by omega)]
      simp

@[simp]
theorem length_blockHashes (env : Env) : (db.blockHashes env).length = db.height :=
  length_map ..

variable {start pruningSeed : Nat} {clipPruned : Bool}

theorem map_supplementHeights {α : Type*} (values : List α) (fallback : α) (room : Nat)
    {stopHeight : Nat} (whole : values.length = stopHeight) (lt : start ≤ stopHeight) :
    (supplementHeights stopHeight room start).map (fun height => values.getD height fallback) =
      (values.drop start).take room := by
  rw [supplementHeights_eq, ListFacts.map_getD_range' _ _ (by omega), take_eq_take_iff, length_drop]
  omega

theorem supplementStop_of_unpruned {currentHeight startHeight : Nat}
    (unpruned : clipPruned = true → pruningSeed = 0) :
    supplementStop currentHeight pruningSeed startHeight clipPruned = some currentHeight := by
  cases clipPruned with
  | false => rfl
  | true => simp [supplementStop, unpruned rfl]

theorem findBlockchainSupplement_of_unpruned {db : BlockchainDB} {env : Env} {qblockIds : List Hash}
    (split : db.findSplitHeight env qblockIds = some start) (lt : start ≤ db.height)
    (unpruned : clipPruned = true → pruningSeed = 0) (wantWeights : Bool) :
    db.findBlockchainSupplement env pruningSeed qblockIds wantWeights clipPruned = some {
        hashes := ((db.blockHashes env).drop start).take blocksIdsSynchronizingDefaultCount
        weights := if wantWeights then
            ((db.blocks.map BlockEntry.blockWeight).drop start).take
              blocksIdsSynchronizingDefaultCount
          else []
        startHeight := start
        currentHeight := db.height } := by
  have hashes := map_supplementHeights _ nullHash
    blocksIdsSynchronizingDefaultCount (length_blockHashes db env) lt
  have weights := map_supplementHeights (db.blocks.map BlockEntry.blockWeight) 0
    blocksIdsSynchronizingDefaultCount (length_map _) lt
  rw [findBlockchainSupplement, split, Option.bind_some,
    supplementStop_of_unpruned unpruned, ← hashes, ← weights]
  rfl

/-! ## The split point is the last listed common block -/

open Option

variable {env : Env}

def chainBlocks (db : BlockchainDB) : List Block :=
  db.blocks.map BlockEntry.bl

structure IsMainChain (env : Env) (db : BlockchainDB) : Prop where
  linked : db.chainBlocks.IsChain fun lower upper =>
    upper.prevId = env.getBlockHash lower
  heights : ∀ height block, db.chainBlocks[height]? = some block →
    LodeChain.getBlockHeight block = height

def InCommonPrefix (left right : BlockchainDB) (height : Nat) : Prop :=
  height < left.height ∧ height < right.height ∧
    left.chainBlocks.take (height + 1) = right.chainBlocks.take (height + 1)

@[simp]
theorem length_chainBlocks (db : BlockchainDB) : db.chainBlocks.length = db.height :=
  length_map ..

theorem isMainChain_of_sound {traffic : Traffic} {chain : Blockchain}
    (sound : Blockchain.SoundChain env traffic chain) : IsMainChain env chain.db where
  linked := by
    rw [isChain_iff_getElem]
    intro height lt
    have stored : height + 1 < chain.db.blocks.length := by simpa [chainBlocks] using lt
    have linked := (sound.entries.of_getElem? (getElem?_eq_getElem stored)).linked
    rw [lastBlockHash, getLast?_take, getElem?_eq_getElem (by omega)] at linked
    simpa [chainBlocks] using linked
  heights := by
    intro height block found
    rw [chainBlocks, getElem?_map, map_eq_some_iff] at found
    obtain ⟨entry, stored, rfl⟩ := found
    exact sound.height_of_getElem? stored

variable {db : BlockchainDB}

variable {height lower upper : Nat}

theorem getBlockIdByHeight_eq {block : Block} (found : db.chainBlocks[height]? = some block) :
    db.getBlockIdByHeight env height = env.getBlockHash block := by
  rw [chainBlocks, getElem?_map, map_eq_some_iff] at found
  obtain ⟨entry, stored, rfl⟩ := found
  rw [getBlockIdByHeight, blockHashes, getD_eq_getElem?_getD, getElem?_map, stored]
  rfl

theorem getBlockHeight_spec {id : Hash} (stored : db.blockExists env id = true) :
    ∃ block, db.chainBlocks[db.getBlockHeight env id]? = some block ∧
      env.getBlockHash block = id := by
  obtain ⟨entry, found, named⟩ := exists_of_blockExists stored
  exact ⟨entry.bl, by rw [chainBlocks, getElem?_map, found]; rfl, named⟩

section TwoChains

variable {left right : BlockchainDB}

theorem InCommonPrefix.blockExists (common : InCommonPrefix left right height) :
    right.blockExists env (left.getBlockIdByHeight env height) = true := by
  obtain ⟨insideLeft, insideRight, same⟩ := common
  have found := congrArg (fun blocks => blocks[height]?) same
  simp only [getElem?_take_of_lt (Nat.lt_succ_self height)] at found
  rw [← length_chainBlocks] at insideRight
  rw [getElem?_eq_getElem insideRight] at found
  rw [getBlockIdByHeight_eq found, BlockchainDB.blockExists, contains_iff_mem]
  obtain ⟨entry, mem, named⟩ := mem_map.mp (getElem_mem insideRight)
  exact mem_map.mpr ⟨entry, mem, congrArg _ named⟩

variable (leftChain : IsMainChain env left) (distinct : Set.InjOn env.getBlockHash
    {block | block ∈ left.chainBlocks ∨ block ∈ right.chainBlocks})

include leftChain distinct

theorem IsMainChain.height_inj (lowerInside : lower < left.height)
    (upperInside : upper < left.height)
    (same : left.getBlockIdByHeight env lower = left.getBlockIdByHeight env upper) :
    lower = upper := by
  rw [← length_chainBlocks] at lowerInside upperInside
  have lowerFound := getElem?_eq_getElem lowerInside
  have upperFound := getElem?_eq_getElem upperInside
  rw [getBlockIdByHeight_eq lowerFound, getBlockIdByHeight_eq upperFound] at same
  have blocks := distinct (.inl (getElem_mem lowerInside)) (.inl (getElem_mem upperInside)) same
  rw [← leftChain.heights _ _ lowerFound, blocks, leftChain.heights _ _ upperFound]

variable (rightChain : IsMainChain env right)

include rightChain

theorem IsMainChain.common_of_id_eq
    (lowerInside : lower < left.height) (upperInside : upper < right.height)
    (same : left.getBlockIdByHeight env lower = right.getBlockIdByHeight env upper) :
    lower = upper ∧ InCommonPrefix left right lower := by
  have leftInside := length_chainBlocks left ▸ lowerInside
  have rightInside := length_chainBlocks right ▸ upperInside
  have leftFound := getElem?_eq_getElem leftInside
  have rightFound := getElem?_eq_getElem rightInside
  rw [getBlockIdByHeight_eq leftFound, getBlockIdByHeight_eq rightFound] at same
  have blocks := distinct (.inl (getElem_mem leftInside)) (.inr (getElem_mem rightInside)) same
  obtain rfl : lower = upper := by
    rw [← leftChain.heights _ _ leftFound, blocks, rightChain.heights _ _ rightFound]
  exact ⟨rfl, lowerInside, upperInside,
    LinkedPaths.take_eq_of_id_eq distinct leftChain.linked rightChain.linked
      (fun _ => .inl) (fun _ => .inr) leftInside rightInside same⟩

theorem IsMainChain.inCommonPrefix (lt : height < left.height)
    (stored : right.blockExists env (left.getBlockIdByHeight env height) = true) :
    right.getBlockHeight env (left.getBlockIdByHeight env height) = height ∧
      InCommonPrefix left right height := by
  obtain ⟨block, found, named⟩ := getBlockHeight_spec stored
  have storedInside := (List.getElem?_eq_some_iff.mp found).1
  rw [length_chainBlocks] at storedInside
  obtain ⟨eq, common⟩ := leftChain.common_of_id_eq distinct rightChain lt
    storedInside ((getBlockIdByHeight_eq found).trans named).symm
  exact ⟨eq.symm, common⟩

theorem IsMainChain.find?_heights {heights : List Nat} {lowest : Nat}
    (decreasing : heights.Pairwise (· > ·)) (lt : ∀ height ∈ heights, height < left.height)
    (mem : lowest ∈ heights) (common : InCommonPrefix left right lowest) :
    ∃ start, heights.find? (fun height =>
        right.blockExists env (left.getBlockIdByHeight env height)) = some start ∧
      start ∈ heights ∧ InCommonPrefix left right start ∧
      ∀ height ∈ heights, InCommonPrefix left right height → height ≤ start := by
  have search : (heights.find? fun height =>
      right.blockExists env (left.getBlockIdByHeight env height)).isSome :=
    find?_isSome.mpr ⟨lowest, mem, common.blockExists⟩
  obtain ⟨start, found⟩ := isSome_iff_exists.mp search
  obtain ⟨stored, newer, older, split, unknown⟩ := find?_eq_some_iff_append.mp found
  have startMember := mem_of_find?_eq_some found
  refine ⟨start, found, startMember,
    (leftChain.inCommonPrefix distinct rightChain (lt start startMember) stored).2, ?_⟩
  intro height heightMember heightCommon
  subst split
  obtain before | rfl | after := by simpa using heightMember
  · have absent := unknown height before
    rw [heightCommon.blockExists] at absent
    simp at absent
  · exact le_rfl
  · exact ((pairwise_cons.mp (pairwise_append.mp decreasing).2.1).1 height after).le

/-- A node lists ids of strictly decreasing heights from its tip to the genesis block, and another
node answers with its own ids from the highest listed block on that both have. -/
theorem IsMainChain.findBlockchainSupplement_eq {genesis : Block}
    (leftGenesis : left.chainBlocks.head? = some genesis)
    (rightGenesis : right.chainBlocks.head? = some genesis) {pruningSeed : Nat} {clipPruned : Bool}
    (unpruned : clipPruned = true → pruningSeed = 0) (wantWeights : Bool) :
    ∃ (heights : List Nat) (start : Nat), left.getShortChainHistory env =
          heights.map (left.getBlockIdByHeight env) ∧ heights.Pairwise (· > ·) ∧
        heights.head? = some (left.height - 1) ∧ heights.getLast? = some 0 ∧
        (left.getShortChainHistory env).count (env.getBlockHash genesis) = 1 ∧ start ∈ heights ∧
        InCommonPrefix left right start ∧
        (∀ height ∈ heights, InCommonPrefix left right height → height ≤ start) ∧
        right.findSplitHeight env (left.getShortChainHistory env) = some start ∧
        right.findBlockchainSupplement env pruningSeed
            (left.getShortChainHistory env) wantWeights clipPruned = some {
            hashes := ((right.blockHashes env).drop start).take blocksIdsSynchronizingDefaultCount
            weights := if wantWeights then
                ((right.blocks.map BlockEntry.blockWeight).drop start).take
                  blocksIdsSynchronizingDefaultCount
              else []
            startHeight := start
            currentHeight := right.height } := by
  have leftFirst := head?_eq_getElem?.symm.trans leftGenesis
  have rightFirst := head?_eq_getElem?.symm.trans rightGenesis
  have leftPositive : 0 < left.height :=
    length_chainBlocks left ▸ (List.getElem?_eq_some_iff.mp leftFirst).1
  have rightPositive : 0 < right.height :=
    length_chainBlocks right ▸ (List.getElem?_eq_some_iff.mp rightFirst).1
  have listed := left.getShortChainHistory_eq env leftPositive
  have inside : ∀ height ∈ historyHeights left.height, height < left.height :=
    fun _ => mem_historyHeights leftPositive
  have genesisMember : 0 ∈ historyHeights left.height := mem_of_getLast? (historyHeights_getLast? _)
  have genesisCommon : InCommonPrefix left right 0 := by
    refine ⟨leftPositive, rightPositive, ?_⟩
    rw [take_one, take_one, leftGenesis, rightGenesis]
  obtain ⟨start, found, member, common, highest⟩ := leftChain.find?_heights distinct rightChain
      (historyHeights_pairwise _) inside genesisMember genesisCommon
  have split : right.findSplitHeight env (left.getShortChainHistory env) = some start := by
    rw [findSplitHeight, if_neg, listed, find?_map, Function.comp_def, found]
    · exact congrArg some (leftChain.inCommonPrefix distinct rightChain
        (inside start member) common.blockExists).1
    · rw [listed, getLast?_map, historyHeights_getLast?, map_some,
        getBlockIdByHeight_eq leftFirst, getBlockIdByHeight_eq rightFirst]
      simp [rightPositive.ne']
  refine ⟨historyHeights _, start, listed,
    historyHeights_pairwise _, historyHeights_head? _, historyHeights_getLast? _,
    ?_, member, common, highest, split,
    findBlockchainSupplement_of_unpruned split common.2.1.le unpruned wantWeights⟩
  rw [listed, ← getBlockIdByHeight_eq leftFirst]
  refine count_eq_one_of_mem ?_ (mem_map_of_mem genesisMember)
  exact List.Nodup.map_on (fun lower lowerMember upper upperMember =>
      leftChain.height_inj distinct (inside lower lowerMember) (inside upper upperMember))
    (historyHeights_pairwise _).nodup

end TwoChains

def numberedEntry (height : Nat) (nonce prevId : Hash) : BlockEntry :=
  { BlockEntry.bare 1 0 prevId 0 with
    bl := {
      majorVersion := 1
      minorVersion := 1
      timestamp := 0
      prevId := prevId
      nonce := nonce
      minerTx := { Transaction.setNull with vin := [.gen height] }
      txHashes := [] } }

def forkOfTwo (later : List BlockEntry) : BlockchainDB :=
  ⟨numberedEntry 0 1 0 :: numberedEntry 1 2 1 :: later, ∅, ∅⟩

theorem IsMainChain.of_getElem
    (linked : db.chainBlocks.IsChain fun lower upper => upper.prevId = env.getBlockHash lower)
    (heights : ∀ height (lt : height < db.chainBlocks.length),
      LodeChain.getBlockHeight db.chainBlocks[height] = height) : IsMainChain env db where
  linked := linked
  heights := by
    intro height block found
    obtain ⟨lt, rfl⟩ := List.getElem?_eq_some_iff.mp found
    exact heights height lt

theorem forkOfTwo_split : ∃ start, InCommonPrefix (forkOfTwo [numberedEntry 2 3 2])
        (forkOfTwo [numberedEntry 2 4 2, numberedEntry 3 5 4]) start ∧
      (forkOfTwo [numberedEntry 2 4 2, numberedEntry 3 5 4]).findSplitHeight
          (.accepting Block.nonce fun _ => 0)
          ((forkOfTwo [numberedEntry 2 3 2]).getShortChainHistory
            (.accepting Block.nonce fun _ => 0)) = some start := by
  have left : IsMainChain (.accepting Block.nonce fun _ => 0) (forkOfTwo [numberedEntry 2 3 2]) :=
    .of_getElem (by decide) (by decide)
  have right : IsMainChain (.accepting Block.nonce fun _ => 0)
      (forkOfTwo [numberedEntry 2 4 2, numberedEntry 3 5 4]) :=
    .of_getElem (by decide) (by decide)
  have distinct : Set.InjOn Block.nonce {block |
      block ∈ (forkOfTwo [numberedEntry 2 3 2]).chainBlocks ∨ block ∈ (forkOfTwo
          [numberedEntry 2 4 2, numberedEntry 3 5 4]).chainBlocks} := by
    have checked : ∀ first ∈ (forkOfTwo [numberedEntry 2 3 2]).chainBlocks ++
          (forkOfTwo [numberedEntry 2 4 2, numberedEntry 3 5 4]).chainBlocks,
        ∀ second ∈ (forkOfTwo [numberedEntry 2 3 2]).chainBlocks ++
          (forkOfTwo [numberedEntry 2 4 2, numberedEntry 3 5 4]).chainBlocks,
        first.nonce = second.nonce → first = second := by
      decide
    intro first firstMember second secondMember
    exact checked first (mem_append.mpr firstMember) second (mem_append.mpr secondMember)
  obtain ⟨heights, start, -, -, -, -, -, -, common, -, split, -⟩ :=
    left.findBlockchainSupplement_eq distinct right rfl rfl
      (fun _ => rfl : true = true → 0 = 0) false
  exact ⟨start, common, split⟩

end BlockchainDB

end LodeChain

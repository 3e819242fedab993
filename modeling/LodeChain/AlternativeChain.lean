import LodeChain.MainChain

/-!
# Alternative blocks and chain switching

`handle_alternative_block` checks a block against its branch and stores it; a branch with more work,
or a checkpoint, becomes the main chain.
-/

namespace LodeChain

open WrappedArithmetic

/-- The state afterwards, with the ids of the blocks that were turned down. -/
structure ChainResult where
  chain : Blockchain
  bvc : BlockVerificationContext
  result : CallResult
  rejected : List Hash

def altWalk (altBlocks : AList fun _ : Hash => BlockExtendedInfo) :
    Nat → Hash → List BlockExtendedInfo → List BlockExtendedInfo
  | 0, _, altChain => altChain
  | fuel + 1, prevId, altChain =>
    match altBlocks.lookup prevId with
    | none => altChain
    | some bei => altWalk altBlocks fuel bei.bl.prevId (bei :: altChain)

namespace BlockchainDB

def altChainTo (db : BlockchainDB) (prevId : Hash) : List BlockExtendedInfo :=
  altWalk db.altBlocks db.altBlocks.keys.length prevId []

def completeTimestampsVector (db : BlockchainDB) (startTopHeight : Nat)
    (timestamps : List Nat) : List Nat :=
  if timestampCheckWindow ≤ timestamps.length then timestamps
  else if db.height ≤ startTopHeight then timestamps
  else
    let needElements := timestampCheckWindow - timestamps.length
    let stopOffset := if needElements < startTopHeight then startTopHeight - needElements
      else 0
    timestamps ++ ((db.blockRange (stopOffset + 1) (startTopHeight + 1)).map
        fun entry => entry.bl.timestamp).reverse

/-- `build_alt_chain`: the branch below a block and its timestamps, newest first. -/
def buildAltChain (db : BlockchainDB) (env : Env) (prevId : Hash) :
    Option (List BlockExtendedInfo × List Nat) :=
  let altChain := db.altChainTo prevId
  let timestamps := (altChain.map fun bei => bei.bl.timestamp).reverse
  match altChain with
  | front :: _ =>
    if db.height ≤ front.height then none
    else if !db.blockExists env front.bl.prevId then none
    else if db.getBlockIdByHeight env (front.height - 1) ≠ front.bl.prevId then none
    else
      some (altChain, db.completeTimestampsVector
        (db.getBlockHeight env front.bl.prevId) timestamps)
  | [] =>
    if !db.blockExists env prevId then none
    else some ([], db.completeTimestampsVector (db.getBlockHeight env prevId) [])

end BlockchainDB

namespace Blockchain

def mainChainStopOffset (altChain : List BlockExtendedInfo) (height : Nat) : Nat :=
  match altChain with
  | front :: _ => front.height
  | [] => height

variable (chain : Blockchain)

def alternativeWindow (altChain : List BlockExtendedInfo) (height : Nat) : List (Nat × Nat) :=
  let altPart := altChain.map fun bei => (bei.bl.timestamp, bei.cumulativeDifficulty)
  if altChain.length < difficultyBlocksCount then
    let stopOffset := mainChainStopOffset altChain height
    let count := min (difficultyBlocksCount - min difficultyBlocksCount altChain.length) stopOffset
    let startOffset := if stopOffset - count = 0 then 1 else stopOffset - count
    (chain.db.blockRange startOffset stopOffset).map
      (fun entry => (entry.bl.timestamp, entry.cumulativeDifficulty)) ++ altPart
  else altPart.rtake difficultyBlocksCount

def getNextDifficultyForAlternativeChain (altChain : List BlockExtendedInfo) (height : Nat) : Nat :=
  if chain.fixedDifficulty ≠ 0 then if chain.db.height = 0 then 1 else chain.fixedDifficulty
  else
    let window := chain.alternativeWindow altChain height
    nextDifficulty (window.map Prod.fst) (window.map Prod.snd)
      (if chain.hardfork.getIdealVersion height < 2 then difficultyTargetV1
        else difficultyTargetV2)

def alternativeProofOfWork (env : Env)
    (altChain : List BlockExtendedInfo) (block : Block) (height : Nat) : Hash :=
  if rxBlockVersion ≤ block.majorVersion then
    let seedheight := rxSeedheight height
    let seedhash := if altChain.head?.any fun front => front.height ≤ seedheight then
        match altChain.find? fun bei => bei.height == seedheight + 1 with
        | some bei => bei.bl.prevId
        | none => nullHash
      else chain.db.getBlockIdByHeight env seedheight
    env.rxSlowHash seedhash block
  else getBlockLonghash env chain.db block height

/-- The loop that adds up the weights; `none` is a thrown exception. -/
def alternativeWeightFrom (chain : Blockchain) (env : Env) : List Hash → Nat → Option Nat
  | [], weight => some weight
  | txid :: rest, weight =>
    if chain.txPool.txMatchesLegacy txid then
      let txWeight := ((chain.txPool.txpool.lookup txid).map
        fun poolEntry => poolEntry.txMeta.weight).getD 0
      alternativeWeightFrom chain env rest (addMod 64 weight txWeight)
    else
      match chain.db.getTx env txid with
      | none => some 0
      | some tx =>
        match env.prunedTransactionWeight tx with
        | none => none
        | some txWeight => alternativeWeightFrom chain env rest (addMod 64 weight txWeight)

/-- Only `rejected` sets the failure flag; `brokenBranch` is a failure of `build_alt_chain`. -/
inductive AlternativeVerdict where
  | rejected (badPow : Bool)
  | difficultyOverhead
  | brokenBranch
  | duplicate
  | orphaned
  | threw
  | accepted (altChain : List BlockExtendedInfo) (bei : BlockExtendedInfo)
  deriving DecidableEq, Repr

structure AlternativeParent where
  height : Nat
  generatedCoins : Nat
  cumulativeDifficulty : Nat

/-- The last block of the branch, or a main-chain block when there is none. -/
def alternativeParent (env : Env) (prevId : Hash)
    (altChain : List BlockExtendedInfo) : AlternativeParent :=
  match altChain.getLast? with
  | some bei => ⟨bei.height, bei.alreadyGeneratedCoins, bei.cumulativeDifficulty⟩
  | none =>
    let height := chain.db.getBlockHeight env prevId
    ⟨height, chain.db.alreadyGeneratedCoinsAt height, chain.db.cumulativeDifficultyAt height⟩

def checkOnBranch (env : Env) (block : Block) (id : Hash)
    (altChain : List BlockExtendedInfo) (timestamps : List Nat) : AlternativeVerdict :=
  let parent := chain.alternativeParent env block.prevId altChain
  let height := parent.height + 1
  let difficulty := chain.getNextDifficultyForAlternativeChain altChain height
  if !checkCollectedTimestamps timestamps block then .rejected false
  else if !chain.checkCheckpoint height id then .rejected false
  else if difficulty = 0 then .difficultyOverhead
  else if !checkHash (chain.alternativeProofOfWork env altChain block height) difficulty then
    .rejected true
  else if !prevalidateMinerTransaction block height
      (chain.hardfork.getIdealVersion (getBlockHeight block)) then
    .rejected false
  else
    match getTransactionWeight block.minerTx with
    | none => .threw
    | some coinbaseWeight =>
      match chain.alternativeWeightFrom env block.txHashes coinbaseWeight with
      | none => .threw
      | some weight =>
        if (chain.db.altBlocks.lookup id).isSome then .duplicate
        else
          .accepted altChain
            { bl := block
              height := height
              blockCumulativeWeight := weight
              cumulativeDifficulty := addMod 128 parent.cumulativeDifficulty difficulty
              alreadyGeneratedCoins := addGeneratedCoins parent.generatedCoins
                  (getOutsMoneyAmount block.minerTx) }

def checkAlternativeBlock (env : Env) (block : Block) (id : Hash) : AlternativeVerdict :=
  let blockHeight := getBlockHeight block
  if blockHeight = 0 then .rejected false
  else if !chain.isAlternativeBlockAllowed blockHeight then .rejected false
  else if !chain.hardfork.checkForHeight block blockHeight then .rejected false
  else if (chain.db.altBlocks.lookup block.prevId).isSome ||
      chain.db.blockExists env block.prevId then
    match chain.db.buildAltChain env block.prevId with
    | none => .brokenBranch
    | some (altChain, timestamps) => chain.checkOnBranch env block id altChain timestamps
  else .orphaned

end Blockchain

/-! ## What accepting an alternative block means -/

open List

theorem altWalk_eq_append (table : AList fun _ : Hash => BlockExtendedInfo)
    (fuel : Nat) (prevId : Hash) (collected : List BlockExtendedInfo) :
    altWalk table fuel prevId collected = altWalk table fuel prevId [] ++ collected := by
  induction fuel generalizing prevId collected with
  | zero => rfl
  | succ fuel ih =>
    rw [altWalk, altWalk]
    split
    · rfl
    · rename_i bei _
      rw [ih _, ih _ [bei], append_assoc]
      rfl

theorem mem_altWalk {table : AList fun _ : Hash => BlockExtendedInfo} {fuel : Nat} {prevId : Hash}
    {bei : BlockExtendedInfo} (mem : bei ∈ altWalk table fuel prevId []) :
    ∃ id, table.lookup id = some bei := by
  induction fuel generalizing prevId with
  | zero => simp [altWalk] at mem
  | succ fuel ih =>
    rw [altWalk] at mem
    split at mem
    · simp at mem
    · rename_i last found
      rw [altWalk_eq_append] at mem
      rcases mem_append.mp mem with below | top
      · exact ih below
      · rw [mem_singleton.mp top]
        exact ⟨prevId, found⟩

theorem BlockchainDB.getLast?_altChainTo (db : BlockchainDB) (prevId : Hash) :
    (db.altChainTo prevId).getLast? = db.altBlocks.lookup prevId := by
  unfold altChainTo
  rcases found : db.altBlocks.lookup prevId with _ | bei
  · cases db.altBlocks.keys.length with
    | zero => rfl
    | succ fuel =>
      rw [altWalk, found]
      rfl
  · have stored : prevId ∈ db.altBlocks.keys := by
      rw [← AList.mem_keys, ← AList.lookup_isSome, found]
      rfl
    obtain ⟨fuel, keys⟩ : ∃ fuel, db.altBlocks.keys.length = fuel + 1 :=
      ⟨db.altBlocks.keys.length - 1, (Nat.sub_add_cancel (length_pos_of_mem stored)).symm⟩
    rw [keys, altWalk, found]
    dsimp only
    rw [altWalk_eq_append, getLast?_append]
    rfl

variable {db : BlockchainDB} {id : Hash} {timestamps : List Nat}

theorem BlockchainDB.getBlockHeight_lt {env : Env}
    (stored : db.blockExists env id = true) : db.getBlockHeight env id < db.height := by
  have bounded := idxOf_lt_length_iff.mpr (contains_iff_mem.mp stored)
  rw [blockHashes, length_map] at bounded
  exact bounded

theorem BlockchainDB.exists_of_blockExists {env : Env} (stored : db.blockExists env id = true) :
    ∃ entry, db.blocks[db.getBlockHeight env id]? = some entry ∧
      env.getBlockHash entry.bl = id := by
  have lt := db.getBlockHeight_lt stored
  have named := getElem_idxOf (idxOf_lt_length_iff.mpr (contains_iff_mem.mp stored))
  simp only [blockHashes, getElem_map] at named
  exact ⟨_, getElem?_eq_getElem lt, named⟩

namespace Blockchain

def branchRoot (altChain : List BlockExtendedInfo) (block : Block) : Hash :=
  match altChain with
  | front :: _ => front.bl.prevId
  | [] => block.prevId

variable {env : Env} {block : Block} {altChain : List BlockExtendedInfo} {chain : Blockchain}
  {bei : BlockExtendedInfo}

theorem buildAltChain_eq_some
    (built : db.buildAltChain env block.prevId = some (altChain, timestamps)) :
    altChain = db.altChainTo block.prevId ∧ db.blockExists env (branchRoot altChain block) = true ∧
      timestamps = db.completeTimestampsVector (db.getBlockHeight env (branchRoot altChain block))
        (altChain.map fun bei => bei.bl.timestamp).reverse := by
  unfold BlockchainDB.buildAltChain at built
  dsimp only at built
  split at built
  · rename_i front rest walked
    split at built
    · simp at built
    · split at built
      · simp at built
      · rename_i rootExists
        split at built
        · simp at built
        · simp at built
          obtain ⟨rfl, rfl⟩ := built
          rw [walked]
          exact ⟨rfl, by simpa [branchRoot] using rootExists, rfl⟩
  · rename_i walked
    split at built
    · simp at built
    · rename_i rootExists
      obtain ⟨rfl, rfl⟩ := built
      exact ⟨walked.symm, by simpa [branchRoot] using rootExists, rfl⟩

/-- What the checks of `handle_alternative_block` have found when they accept a
block. -/
structure AcceptedAlternative (env : Env) (chain : Blockchain) (block : Block)
    (altChain : List BlockExtendedInfo) (bei : BlockExtendedInfo) : Prop where
  allowed : chain.isAlternativeBlockAllowed (getBlockHeight block) = true
  built : ∃ timestamps, chain.db.buildAltChain env block.prevId = some (altChain, timestamps)
  isNew : chain.db.altBlocks.lookup (env.getBlockHash block) = none
  bl : bei.bl = block
  height : bei.height = (chain.alternativeParent env block.prevId altChain).height + 1
  prevalidated : prevalidateMinerTransaction block bei.height
    (chain.hardfork.getIdealVersion (getBlockHeight block)) = true
  difficultyPos : chain.getNextDifficultyForAlternativeChain altChain bei.height ≠ 0
  cumulativeDifficulty : bei.cumulativeDifficulty = addMod 128
    (chain.alternativeParent env block.prevId altChain).cumulativeDifficulty
    (chain.getNextDifficultyForAlternativeChain altChain bei.height)
  alreadyGeneratedCoins : bei.alreadyGeneratedCoins = addGeneratedCoins
    (chain.alternativeParent env block.prevId altChain).generatedCoins
    (getOutsMoneyAmount block.minerTx)
  checkpointed : chain.checkCheckpoint bei.height (env.getBlockHash block) = true
  weighed : ∃ weight, getTransactionWeight block.minerTx = some weight

theorem checkOnBranch_accepted {found : List BlockExtendedInfo}
    (allowed : chain.isAlternativeBlockAllowed (getBlockHeight block) = true)
    (built : chain.db.buildAltChain env block.prevId = some (altChain, timestamps))
    (accepted : chain.checkOnBranch env block (env.getBlockHash block) altChain timestamps =
      .accepted found bei) : AcceptedAlternative env chain block found bei := by
  unfold checkOnBranch at accepted
  dsimp only at accepted
  split at accepted
  · simp at accepted
  · split at accepted
    · simp at accepted
    · rename_i checkpointed
      split at accepted
      · simp at accepted
      · rename_i difficultyPos
        split at accepted
        · simp at accepted
        · split at accepted
          · simp at accepted
          · rename_i prevalidated
            split at accepted
            · simp at accepted
            · rename_i coinbase weighed
              split at accepted
              · simp at accepted
              · split at accepted
                · simp at accepted
                · rename_i isNew
                  obtain ⟨rfl, rfl⟩ := accepted
                  exact ⟨allowed, ⟨timestamps, built⟩, by simpa using isNew, rfl, rfl,
                    by simpa using prevalidated, difficultyPos, rfl, rfl,
                    by simpa using checkpointed, coinbase, weighed⟩

theorem checkAlternativeBlock_accepted (accepted : chain.checkAlternativeBlock env block
      (env.getBlockHash block) = .accepted altChain bei) :
    AcceptedAlternative env chain block altChain bei := by
  unfold checkAlternativeBlock at accepted
  dsimp only at accepted
  split_ifs at accepted with notGenesis allowed versionChecked known
  split at accepted
  · simp at accepted
  · rename_i branch timestamps built
    exact checkOnBranch_accepted (by simpa using allowed) built accepted

/-! ## Timestamp windows on a branch -/

open BlockchainDB

/-- The genesis block, `above` more main-chain blocks and a branch; `timestamps` is what the
alternative path collects. -/
structure SplitAncestors (env : Env) (chain joined : Blockchain)
    (block : Block) (altChain : List BlockExtendedInfo)
    (timestamps : List Nat) (above : Nat) : Prop where
  built : chain.db.buildAltChain env block.prevId = some (altChain, timestamps)
  attached : chain.db.getBlockHeight env (branchRoot altChain block) = above
  joinedBlocks : joined.db.blocks.map BlockEntry.bl =
    (chain.db.blocks.take (above + 1)).map BlockEntry.bl ++ altChain.map BlockExtendedInfo.bl

variable {above alternatives : Nat} {branch : List Nat}

variable {joined : Blockchain}

theorem completeTimestampsVector_full (lt : above < db.height)
    (filled : timestampCheckWindow ≤ above + branch.length)
    (short : branch.length ≤ timestampCheckWindow) :
    db.completeTimestampsVector above branch.reverse =
      (((db.blocks.take (above + 1)).map (fun entry => entry.bl.timestamp) ++ branch).rtake
        timestampCheckWindow).reverse := by
  have taken : (db.blocks.take (above + 1)).length = above + 1 := by
    rw [length_take]
    exact min_eq_left lt
  unfold completeTimestampsVector blockRange rtake
  rw [length_reverse, length_append]
  split
  · have long : branch.length = timestampCheckWindow := by omega
    rw [drop_append, drop_of_length_le, nil_append]
    · rw [length_map, taken, long]
      have start : above + 1 + timestampCheckWindow - timestampCheckWindow - (above + 1) = 0 := by
        omega
      rw [start, drop_zero]
    · rw [length_map]
      omega
  · rename_i part
    rw [if_neg (by omega)]
    dsimp only
    have start : (if timestampCheckWindow - branch.length < above then
        above - (timestampCheckWindow - branch.length) else 0) + 1 =
        above + 1 + branch.length - timestampCheckWindow := by
      split
      all_goals omega
    have rest : above + 1 + branch.length - timestampCheckWindow - (above + 1) = 0 := by omega
    rw [start, drop_append, length_map, taken, rest, drop_zero, reverse_append, map_drop]

theorem completeTimestampsVector_short (lt : above < db.height)
    (few : above + branch.length < timestampCheckWindow) :
    db.completeTimestampsVector above branch.reverse = (((db.blocks.take (above + 1)).map
        (fun entry => entry.bl.timestamp)).tail ++ branch).reverse := by
  unfold completeTimestampsVector blockRange
  rw [length_reverse, if_neg (by omega), if_neg (by omega)]
  dsimp only
  rw [if_neg (by omega), reverse_append, ← drop_one, map_drop]

theorem completeTimestampsVector_long (long : timestampCheckWindow ≤ branch.length) :
    db.completeTimestampsVector above branch.reverse = branch.reverse := by
  unfold completeTimestampsVector
  rw [length_reverse, if_pos long]

theorem SplitAncestors.collected
    (split : SplitAncestors env chain joined block altChain timestamps above) :
    above < chain.db.height ∧ joined.db.height = above + 1 + altChain.length ∧
      (joined.db.blocks.map fun entry => entry.bl.timestamp) =
        (chain.db.blocks.take (above + 1)).map (fun entry => entry.bl.timestamp) ++
          altChain.map (fun bei => bei.bl.timestamp) ∧
      timestamps = chain.db.completeTimestampsVector above
        (altChain.map fun bei => bei.bl.timestamp).reverse := by
  obtain ⟨-, rootExists, collected⟩ := buildAltChain_eq_some split.built
  rw [split.attached] at collected
  have lt : above < chain.db.height := by
    rw [← split.attached]
    exact getBlockHeight_lt rootExists
  refine ⟨lt, ?_, ?_, collected⟩
  · have lengths := congrArg length split.joinedBlocks
    unfold height at lt ⊢
    simp at lengths
    omega
  · have mapped := congrArg (map Block.timestamp) split.joinedBlocks
    simpa [map_map, Function.comp_def] using mapped

theorem lastTimestamps_eq_rtake (db : BlockchainDB) (count : Nat) :
    (db.blockRange (db.height - count) db.height).map (fun entry => entry.bl.timestamp) =
      (db.blocks.map fun entry => entry.bl.timestamp).rtake count := by
  unfold blockRange height rtake
  rw [take_length, map_drop, length_map]

theorem SplitAncestors.agree
    (split : SplitAncestors env chain joined block altChain timestamps above)
    (shape : above + altChain.length = 0 ∨
      (timestampCheckWindow ≤ above + altChain.length ∧ altChain.length ≤ timestampCheckWindow)) :
    checkCollectedTimestamps timestamps block = joined.checkMedianTimestamp block := by
  obtain ⟨lt, height, ancestors, collected⟩ := split.collected
  unfold checkMedianTimestamp
  rcases shape with lone | ⟨filled, short⟩
  · have empty : altChain = [] := length_eq_zero_iff.mp (by omega)
    subst empty
    have genesis : above = 0 := by omega
    subst genesis
    rw [if_pos (by rw [height]; decide), collected,
      completeTimestampsVector_short lt (by decide)]
    simp [checkCollectedTimestamps, median]
  · rw [if_neg (by omega), collected, completeTimestampsVector_full lt (by simpa using filled)
        (by simpa using short), ← ancestors]
    rw [lastTimestamps_eq_rtake, checkCollectedTimestamps,
      checkCollectedTimestamps, median_of_perm (reverse_perm _)]

section Ladder

variable (times : Nat → Nat)

def ladderBlock (index : Nat) : Block :=
  ⟨1, 1, times index, index, index, Transaction.setNull, []⟩

def ladderEnv : Env :=
  .accepting (fun block => block.nonce + 1) (fun _ => 0)

def ladderEntry (index : Nat) : BlockEntry :=
  ⟨ladderBlock times index, 0, 0, 0, 0, []⟩

def ladderInfo (index : Nat) : BlockExtendedInfo :=
  ⟨ladderBlock times index, index, 0, 0, 0⟩

/-- The table of alternative blocks with the given number of heights from
`base` on. -/
def ladderTable (base : Nat) : Nat → AList fun _ : Hash => BlockExtendedInfo
  | 0 => ∅
  | count + 1 =>
    (ladderTable base count).insert (base + count + 1) (ladderInfo times (base + count))

def ladderChain (above alternatives : Nat) : Blockchain :=
  { Blockchain.empty with
    db :=
      { blocks := (range (above + 1)).map (ladderEntry times) ++
          [⟨{ ladderBlock times (above + 1) with
              nonce := above + alternatives + 2 }, 0, 0, 0, 0, []⟩]
        altBlocks := ladderTable times (above + 1) alternatives
        hfVersions := ∅ } }

def joinedLadder (count : Nat) : Blockchain :=
  { Blockchain.empty with
    db := { Blockchain.empty.db with
        blocks := (range count).map (ladderEntry times) } }

def ladderTop (count timestamp : Nat) : Block :=
  { ladderBlock times count with timestamp := timestamp }

variable {times}

theorem lookup_ladderTable (base count id : Nat) : (ladderTable times base count).lookup id =
      if base < id ∧ id ≤ base + count then some (ladderInfo times (id - 1))
      else none := by
  induction count with
  | zero =>
    rw [if_neg (by omega)]
    rfl
  | succ count ih =>
    rw [ladderTable]
    by_cases top : id = base + count + 1
    · rw [top, AList.lookup_insert, if_pos (by omega)]
      rfl
    · rw [AList.lookup_insert_ne top, ih]
      congr 1
      rw [eq_iff_iff]
      omega

theorem length_keys_ladderTable (base count : Nat) :
    (ladderTable times base count).keys.length = count := by
  induction count with
  | zero => rfl
  | succ count ih =>
    have absent : base + count + 1 ∉ ladderTable times base count := by
      rw [← AList.lookup_eq_none, lookup_ladderTable, if_neg (by omega)]
    rw [ladderTable, AList.keys_insert, length_cons, erase_of_not_mem absent, ih]

theorem altWalk_ladderTable (base count : Nat) (fuel length : Nat)
    (enough : length ≤ fuel) (lt : length ≤ count) (collected : List BlockExtendedInfo) :
    altWalk (ladderTable times base count) fuel (base + length) collected =
      (range length).map (fun index => ladderInfo times (base + index)) ++ collected := by
  induction length generalizing fuel collected with
  | zero =>
    cases fuel with
    | zero => rfl
    | succ fuel =>
      rw [altWalk, lookup_ladderTable, if_neg (by omega)]
      rfl
  | succ length ih =>
    obtain ⟨fuel, rfl⟩ : ∃ rest, fuel = rest + 1 := ⟨fuel - 1, by omega⟩
    rw [altWalk, lookup_ladderTable, if_pos (by omega)]
    have walked := ih fuel (by omega) (by omega) (ladderInfo times (base + length) :: collected)
    rw [range_succ, map_append, append_assoc]
    exact walked

theorem blockHashes_ladderChain (above alternatives : Nat) :
    (ladderChain times above alternatives).db.blockHashes ladderEnv =
      (range (above + 1)).map (· + 1) ++ [above + alternatives + 3] := by
  simp [ladderChain, blockHashes, Function.comp_def, ladderEntry,
    ladderEnv, Env.accepting, ladderBlock]

theorem getBlockHeight_ladderChain (above alternatives : Nat) :
    (ladderChain times above alternatives).db.getBlockHeight ladderEnv (above + 1) = above := by
  rw [BlockchainDB.getBlockHeight, blockHashes_ladderChain,
    idxOf_append_of_mem (by simp), range_succ, map_append,
    idxOf_append_of_notMem (by simp)]
  simp

theorem buildAltChain_ladderChain (above alternatives : Nat) :
    (ladderChain times above alternatives).db.buildAltChain ladderEnv (above + 1 + alternatives) =
      some ((range alternatives).map (fun index => ladderInfo times (above + 1 + index)),
        (ladderChain times above alternatives).db.completeTimestampsVector above
          (((range alternatives).map (fun index => ladderInfo times (above + 1 + index))).map
            fun bei => bei.bl.timestamp).reverse) := by
  have walked : (ladderChain times above alternatives).db.altChainTo
      (above + 1 + alternatives) = (range alternatives).map
        (fun index => ladderInfo times (above + 1 + index)) := by
    have walk := @altWalk_ladderTable times (above + 1) alternatives
      alternatives alternatives le_rfl le_rfl []
    rw [append_nil] at walk
    unfold altChainTo
    rw [show (ladderChain times above alternatives).db.altBlocks =
      ladderTable times _ alternatives from rfl,
      length_keys_ladderTable]
    exact walk
  have rootExists : (ladderChain times above alternatives).db.blockExists
      ladderEnv (above + 1) = true := by
    rw [blockExists, blockHashes_ladderChain]
    simp
  have rootId : (ladderChain times above alternatives).db.getBlockIdByHeight
      ladderEnv above = above + 1 := by
    rw [getBlockIdByHeight, blockHashes_ladderChain]
    simp [getD_eq_getElem?_getD]
  have tall : ¬ (ladderChain times above alternatives).db.height ≤ above + 1 := by
    simp [ladderChain, height]
  unfold buildAltChain
  rw [walked]
  cases alternatives with
  | zero =>
    rw [if_neg (by simp [rootExists]), getBlockHeight_ladderChain]
    rfl
  | succ alternatives =>
    rw [range_succ_eq_map, map_cons]
    have frontHeight : (ladderInfo times (above + 1 + 0)).height = above + 1 := rfl
    have frontPrev : (ladderInfo times (above + 1 + 0)).bl.prevId = above + 1 := rfl
    dsimp only
    rw [frontHeight, frontPrev, Nat.add_sub_cancel, if_neg tall,
      if_neg (by simp [rootExists]), if_neg (not_not.mpr rootId),
      getBlockHeight_ladderChain]

theorem ladder_split (above alternatives timestamp : Nat) :
    SplitAncestors ladderEnv (ladderChain times above alternatives)
      (joinedLadder times (above + 1 + alternatives))
      (ladderTop times (above + 1 + alternatives) timestamp)
      ((range alternatives).map (fun index => ladderInfo times (above + 1 + index)))
      ((ladderChain times above alternatives).db.completeTimestampsVector above
        ((range alternatives).map (fun index => times (above + 1 + index))).reverse) above := by
  refine ⟨?_, ?_, ?_⟩
  · have built := @buildAltChain_ladderChain times above alternatives
    rw [map_map] at built
    exact built
  · cases alternatives with
    | zero => exact getBlockHeight_ladderChain above 0
    | succ alternatives =>
      rw [range_succ_eq_map]
      exact getBlockHeight_ladderChain above _
  · simp only [joinedLadder, ladderChain]
    rw [take_append_of_le_length (by simp), take_of_length_le (by simp), range_add, map_append,
      map_append, map_map, map_map, map_map, map_map]
    rfl

theorem ladder_collected_short {above alternatives : Nat}
    (few : above + alternatives < timestampCheckWindow) :
    (ladderChain times above alternatives).db.completeTimestampsVector above
        ((range alternatives).map (fun index => times (above + 1 + index))).reverse =
      ((range (above + alternatives)).map (fun index => times (index + 1))).reverse := by
  have lt : above < (ladderChain times above alternatives).db.height := by
    simp [ladderChain, height]
  rw [completeTimestampsVector_short lt (by simpa using few)]
  congr 1
  simp only [ladderChain]
  rw [take_append_of_le_length (by simp), take_of_length_le (by simp),
    map_map, range_succ_eq_map, map_cons,
    range_add, map_append, map_map, map_map]
  congr 1
  refine map_congr_left ?_
  intro index _
  simp
  congr 1
  omega

theorem joinedLadder_verdict (count : Nat) (block : Block) :
    (joinedLadder times count).checkMedianTimestamp block =
      if count < timestampCheckWindow then true
      else checkCollectedTimestamps
        (((range count).map times).rtake timestampCheckWindow) block := by
  have height : (joinedLadder times count).db.height = count := by
    simp [joinedLadder, height]
  have ancestors : ((joinedLadder times count).db.blocks.map
      fun entry => entry.bl.timestamp) = (range count).map times := by
    simp [joinedLadder, ladderEntry, ladderBlock, Function.comp_def]
  unfold checkMedianTimestamp
  rw [lastTimestamps_eq_rtake, height, ancestors]

variable (times)

/-- The two paths give a block of this timestamp on top of the ladder
different verdicts. -/
def LadderDisagrees (above alternatives timestamp : Nat) : Prop :=
  checkCollectedTimestamps ((ladderChain times above alternatives).db.completeTimestampsVector above
        ((range alternatives).map (fun index => times (above + 1 + index))).reverse)
      (ladderTop times (above + 1 + alternatives) timestamp) ≠
    (joinedLadder times (above + 1 + alternatives)).checkMedianTimestamp
      (ladderTop times (above + 1 + alternatives) timestamp)

end Ladder

def stepTimes (lows index : Nat) : Nat :=
  if index < lows then 0 else 2

theorem map_range_stepTimes (lows highs : Nat) : (range (lows + highs)).map (stepTimes lows) =
      replicate lows 0 ++ replicate highs 2 :=
  ListFacts.map_range_step lows highs 0 2

theorem ladderDisagrees_short (some : 0 < above + alternatives)
    (few : above + alternatives + 1 < timestampCheckWindow) :
    LadderDisagrees (fun _ => 1) above alternatives 0 := by
  have collected := @ladder_collected_short (fun _ => 1) above alternatives (by omega)
  have ones : (range (above + alternatives)).map (fun _ => 1) =
      replicate (above + alternatives) 1 ++ replicate 0 1 := by
    simp [map_const']
  rw [LadderDisagrees, joinedLadder_verdict, if_pos (by omega), collected,
    checkCollectedTimestamps, median_of_perm (reverse_perm _), ones,
    median_replicate_append le_rfl (by omega)]
  simp [ladderTop]

theorem ladderDisagrees_sixty (sixty : above + alternatives + 1 = timestampCheckWindow) :
    LadderDisagrees (stepTimes 30) above alternatives 1 := by
  have collected := @ladder_collected_short (stepTimes 30) above alternatives (by omega)
  have count : above + 1 + alternatives = 30 + 30 := by
    simp [timestampCheckWindow] at sixty
    omega
  have below : above + alternatives = 29 + 30 := by omega
  have steps : (range (above + alternatives)).map (fun index => stepTimes 30 (index + 1)) =
      replicate 29 0 ++ replicate 30 2 := by
    rw [below, ← map_range_stepTimes]
    refine map_congr_left ?_
    intro index _
    simp [stepTimes, show index + 1 < 30 ↔ index < 29 by omega]
  have whole : (replicate 30 0 ++ replicate 30 2).rtake
      timestampCheckWindow = replicate 30 0 ++ replicate 30 2 := rfl
  rw [LadderDisagrees, joinedLadder_verdict, collected,
    steps, count, map_range_stepTimes, whole, checkCollectedTimestamps,
    checkCollectedTimestamps, median_of_perm (reverse_perm _),
    median_replicate_append (by omega) (by omega),
    median_replicate_append (by omega) (by omega)]
  simp [ladderTop]

theorem ladderDisagrees_long (long : timestampCheckWindow < alternatives) :
    LadderDisagrees (stepTimes (above + alternatives - 29)) above alternatives 0 := by
  simp [timestampCheckWindow] at long
  have steps : (range alternatives).map (fun index => stepTimes (above + alternatives - 29)
          (above + 1 + index)) =
      replicate (alternatives - 30) 0 ++ replicate 30 2 := by
    rw [← map_range_stepTimes, Nat.sub_add_cancel (by omega)]
    refine map_congr_left ?_
    intro index _
    simp [stepTimes, show above + 1 + index < above + alternatives - 29 ↔
      index < alternatives - 30 by omega]
  have count : above + 1 + alternatives = (above + alternatives - 29) + 30 := by omega
  have window : (replicate (above + alternatives - 29) 0 ++
        replicate 30 2).rtake timestampCheckWindow =
      replicate 30 0 ++ replicate 30 2 := by
    have lows : above + alternatives - 29 -
        (above + alternatives - 29 + 30 - timestampCheckWindow) = 30 := by
      simp [timestampCheckWindow]
      omega
    have highs : above + alternatives - 29 + 30 - timestampCheckWindow -
        (above + alternatives - 29) = 0 := by
      omega
    rw [rtake, drop_append, length_append,
      length_replicate, length_replicate, drop_replicate, lows,
      highs, drop_zero]
  rw [LadderDisagrees, joinedLadder_verdict, if_neg (by simp [timestampCheckWindow]; omega),
    completeTimestampsVector_long (by simp [timestampCheckWindow]; omega), steps,
    count, map_range_stepTimes, window, checkCollectedTimestamps,
    checkCollectedTimestamps, median_of_perm (reverse_perm _),
    median_replicate_append (by omega) (by omega),
    median_replicate_append (by omega) (by omega), if_pos (by omega)]
  simp [ladderTop]

/-- The verdicts agree on every chain with `above` ancestors on the main chain above the genesis
block and the given number of alternative ones if and only if there are no such ancestors, or at
least 60 of which at most 60 are alternative. -/
theorem alternativeTimestampVerdict_iff (above alternatives : Nat) :
    (∀ env chain joined block altChain timestamps,
      SplitAncestors env chain joined block altChain timestamps above →
      altChain.length = alternatives → checkCollectedTimestamps timestamps block =
          joined.checkMedianTimestamp block) ↔ above + alternatives = 0 ∨
        (timestampCheckWindow ≤ above + alternatives ∧ alternatives ≤ timestampCheckWindow) := by
  constructor
  · intro agree
    have ladder : ∀ times timestamp, ¬ LadderDisagrees times above alternatives timestamp :=
      fun times timestamp disagrees => disagrees (agree _ _ _ _ _ _
        (ladder_split above alternatives timestamp) (by simp))
    by_contra outside
    rcases lt_trichotomy (above + alternatives + 1) timestampCheckWindow with
      few | sixty | many
    · exact ladder _ _ (ladderDisagrees_short (by omega) few)
    · exact ladder _ _ (ladderDisagrees_sixty sixty)
    · exact ladder _ _ (ladderDisagrees_long (by omega))
  · intro shape env chain joined block altChain timestamps split length
    subst length
    exact split.agree shape

/-- At height one the alternative path rejects a block that as third block of a main chain would be
accepted. -/
theorem ladder_second_block_verdicts :
    ((ladderChain (fun index => 1000 * index) 0 1).db.buildAltChain ladderEnv
        (ladderTop (fun index => 1000 * index) 2 900).prevId).map
        (fun built => checkCollectedTimestamps built.2
          (ladderTop (fun index => 1000 * index) 2 900)) = some false ∧
      (joinedLadder (fun index => 1000 * index) 2).checkMedianTimestamp
        (ladderTop (fun index => 1000 * index) 2 900) = true := by
  decide

end Blockchain

end LodeChain

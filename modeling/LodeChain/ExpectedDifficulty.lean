import LodeChain.AlternativeChain

/-!
# The difficulty of the next block

Whatever is cached, `get_difficulty_for_next_block` looks at the last blocks of the chain. A branch,
and the repair of stored difficulties, follow the same rule.
-/

namespace LodeChain

open WrappedArithmetic List BlockchainDB BlockEntry Blockchain HardFork

namespace Blockchain

variable (chain : Blockchain)

def expectedDifficulty : Nat :=
  if chain.fixedDifficulty ≠ 0 then if chain.db.height = 0 then 1 else chain.fixedDifficulty
  else
    nextDifficulty (chain.difficultyBlocks.map fun entry => entry.bl.timestamp)
      (chain.difficultyBlocks.map cumulativeDifficulty)
      chain.getDifficultyTarget

theorem getDifficultyForNextBlock_fst (env : Env) :
    (chain.getDifficultyForNextBlock env).1 = chain.expectedDifficulty := by
  unfold getDifficultyForNextBlock expectedDifficulty
  split
  · rfl
  · dsimp only
    split
    · rfl
    · rfl

theorem getDifficultyForNextBlock_snd (env : Env) :
    ∃ cache, (chain.getDifficultyForNextBlock env).2 = { chain with difficultyCache := cache } := by
  unfold getDifficultyForNextBlock
  split
  · exact ⟨chain.difficultyCache, rfl⟩
  · dsimp only
    split
    · exact ⟨_, rfl⟩
    · exact ⟨_, rfl⟩

theorem difficultyBlocks_eq_rtake : chain.difficultyBlocks = chain.db.blocks.rtake
      (min (chain.db.height - 1) difficultyBlocksCount) := by
  unfold difficultyBlocks blockRange height rtake
  simp only [take_length]
  rcases eq_zero_or_pos chain.db.blocks.length with empty | pos
  · simp [length_eq_zero_iff.mp empty]
  · congr 1
    split
    all_goals omega

/-- The difficulty is the one of the last `min (height - 1) 735` blocks, whatever is cached. -/
theorem getDifficultyForNextBlock_eq_nextDifficulty (chain : Blockchain)
    (env : Env) (unfixed : chain.fixedDifficulty = 0) :
    (chain.getDifficultyForNextBlock env).1 = nextDifficulty
        ((chain.db.blocks.rtake (min (chain.db.height - 1)
          difficultyBlocksCount)).map fun entry => entry.bl.timestamp)
        ((chain.db.blocks.rtake (min (chain.db.height - 1)
          difficultyBlocksCount)).map cumulativeDifficulty)
        chain.getDifficultyTarget := by
  rw [getDifficultyForNextBlock_fst, expectedDifficulty,
    if_neg (by simp [unfixed]), difficultyBlocks_eq_rtake]

def staleCacheChain : Blockchain :=
  { empty with
    db := { empty.db with
        blocks := [.bare 1 0 0 1, .bare 1 100 7 2, .bare 16 160 7 3, .bare 16 190 7 6] }
    difficultyCache := ⟨[5], [5], 3, false, 7, 99⟩ }

theorem staleCacheChain_difficulty :
    (staleCacheChain.getDifficultyForNextBlock (.accepting (fun _ => 7) (fun _ => 7))).1 =
      nextDifficulty [100, 160, 190] [2, 3, 6] difficultyTargetV1 :=
  getDifficultyForNextBlock_eq_nextDifficulty staleCacheChain _ rfl

/-- A branch that leaves the main chain at the height `fork`. -/
structure AttachedAt (chain : Blockchain) (altChain : List BlockExtendedInfo)
    (fork : Nat) : Prop where
  positive : 0 < fork
  inside : fork ≤ chain.db.height
  heights : ∀ index bei, altChain[index]? = some bei → bei.height = fork + index

variable {altChain : List BlockExtendedInfo} {fork : Nat}

theorem alternativeWindow_eq_rtake {chain : Blockchain}
    (attached : chain.AttachedAt altChain fork) :
    chain.alternativeWindow altChain (fork + altChain.length) = ((chain.db.blocks.take fork).map
          (fun entry => (entry.bl.timestamp, entry.cumulativeDifficulty)) ++ altChain.map
          (fun bei => (bei.bl.timestamp, bei.cumulativeDifficulty))).rtake
        (min (fork + altChain.length - 1) difficultyBlocksCount) := by
  have pos := attached.positive
  have forkLength : (chain.db.blocks.take fork).length = fork := by
    rw [length_take]
    exact min_eq_left attached.inside
  have stop : mainChainStopOffset altChain (fork + altChain.length) = fork := by
    cases altChain with
    | nil => rfl
    | cons front rest => exact attached.heights 0 front rfl
  unfold alternativeWindow rtake
  simp only [stop, length_append, length_map, forkLength]
  split
  · rename_i short
    rw [drop_append, length_map, forkLength, ← map_drop]
    have start : (if fork - min (difficultyBlocksCount -
          min difficultyBlocksCount altChain.length) fork = 0 then 1
        else fork - min (difficultyBlocksCount - min difficultyBlocksCount altChain.length) fork) =
        fork + altChain.length - min (fork + altChain.length - 1) difficultyBlocksCount := by
      split
      all_goals omega
    have inPrefix : fork + altChain.length -
        min (fork + altChain.length - 1) difficultyBlocksCount - fork = 0 := by
      omega
    rw [start, inPrefix]
    rfl
  · rename_i long
    have passed : ((chain.db.blocks.take fork).map
        (fun entry => (entry.bl.timestamp, entry.cumulativeDifficulty))).drop
        (fork + altChain.length - min (fork + altChain.length - 1) difficultyBlocksCount) = [] := by
      refine drop_of_length_le ?_
      rw [length_map]
      omega
    have index : fork + altChain.length -
        min (fork + altChain.length - 1) difficultyBlocksCount - fork =
        altChain.length - difficultyBlocksCount := by
      omega
    rw [drop_append, passed, nil_append, length_map, forkLength, index]

theorem getNextDifficultyForAlternativeChain_eq_expectedDifficulty {chain joined : Blockchain}
    (attached : chain.AttachedAt altChain fork)
    (unfixed : chain.fixedDifficulty = 0) (joinedUnfixed : joined.fixedDifficulty = 0)
    (joinedBlocks : joined.db.blocks.map (fun entry => (entry.bl, entry.cumulativeDifficulty)) =
      (chain.db.blocks.take fork).map (fun entry => (entry.bl, entry.cumulativeDifficulty)) ++
        altChain.map (fun bei => (bei.bl, bei.cumulativeDifficulty)))
    (version : chain.hardfork.getIdealVersion (fork + altChain.length) =
      joined.getCurrentHardForkVersion) : chain.getNextDifficultyForAlternativeChain altChain
        (fork + altChain.length) = joined.expectedDifficulty := by
  have height : joined.db.blocks.length = fork + altChain.length := by
    have lengths := congrArg length joinedBlocks
    have lt : fork ≤ chain.db.blocks.length := attached.inside
    simp at lengths
    omega
  have pairs : joined.db.blocks.map
        (fun entry => (entry.bl.timestamp, entry.cumulativeDifficulty)) =
      (chain.db.blocks.take fork).map
          (fun entry => (entry.bl.timestamp, entry.cumulativeDifficulty)) ++
        altChain.map (fun bei => (bei.bl.timestamp, bei.cumulativeDifficulty)) := by
    have mapped := congrArg (map fun pair : Block × Nat =>
      (pair.1.timestamp, pair.2)) joinedBlocks
    simpa [map_map, Function.comp_def] using mapped
  have window : chain.alternativeWindow altChain (fork + altChain.length) =
      joined.difficultyBlocks.map
        (fun entry => (entry.bl.timestamp, entry.cumulativeDifficulty)) := by
    rw [alternativeWindow_eq_rtake attached, difficultyBlocks_eq_rtake, ← pairs,
      BlockchainDB.height, height, List.rtake, List.rtake, length_map,
      map_drop]
  unfold getNextDifficultyForAlternativeChain expectedDifficulty getDifficultyTarget
  rw [if_neg (not_not.mpr unfixed), if_neg (not_not.mpr joinedUnfixed), window, version]
  simp
  rfl

/-- On a branch the difficulty is the one a main chain of the blocks below the fork and the branch
would ask for. -/
theorem getNextDifficultyForAlternativeChain_eq_joined {chain joined : Blockchain}
    {altChain : List BlockExtendedInfo} {fork : Nat} {initial : HardFork} {hfVersions : HfVersions}
    (env : Env) (attached : chain.AttachedAt altChain fork) (unfixed : chain.fixedDifficulty = 0)
    (joinedUnfixed : joined.fixedDifficulty = 0)
    (joinedBlocks : joined.db.blocks.map (fun entry => (entry.bl, entry.cumulativeDifficulty)) =
      (chain.db.blocks.take fork).map (fun entry => (entry.bl, entry.cumulativeDifficulty)) ++
        altChain.map (fun bei => (bei.bl, bei.cumulativeDifficulty))) (byHeight : initial.ByHeight)
    (started : initial.InForce 0) (sameTable : chain.hardfork.SameTable initial)
    (accepted : HardFork.AcceptsAll (initial, hfVersions) 0 (joined.db.blocks.map bl))
    (joinedHardfork : joined.hardfork = (addAll (initial, hfVersions)
      0 (joined.db.blocks.map bl)).1) :
    chain.getNextDifficultyForAlternativeChain altChain (fork + altChain.length) =
      (joined.getDifficultyForNextBlock env).1 := by
  have synced := @HardFork.Synced.addAll _ [] (joined.db.blocks.map bl)
    ⟨byHeight, started, by simp, by simp⟩ accepted
  have sameJoined := addAll_sameTable (initial, hfVersions) 0 (joined.db.blocks.map bl)
  have height : joined.db.blocks.length = fork + altChain.length := by
    have lengths := congrArg length joinedBlocks
    have inside : fork ≤ chain.db.blocks.length := attached.inside
    simp at lengths
    omega
  rw [getDifficultyForNextBlock_fst]
  refine getNextDifficultyForAlternativeChain_eq_expectedDifficulty attached
    unfixed joinedUnfixed joinedBlocks ?_
  rw [getIdealVersion_eq_versionAt (sameTable.byHeight byHeight),
    sameTable.versionAt, ← sameJoined.versionAt, getCurrentHardForkVersion,
    joinedHardfork]
  have current := synced.inForce.getCurrentVersion
  rw [nil_append, length_map, height] at current
  exact current.symm

def forkedChain : Blockchain :=
  { staleCacheChain with
    hardfork := (addAll (empty.hardfork, ∅) 0 (staleCacheChain.db.blocks.map bl)).1 }

def forkedBranch : List BlockExtendedInfo :=
  [⟨⟨16, 16, 150, 7, 0, Transaction.setNull, []⟩, 2, 0, 4, 0⟩,
    ⟨⟨16, 16, 400, 7, 0, Transaction.setNull, []⟩, 3, 0, 9, 0⟩]

def joinedChain : Blockchain :=
  let blocks : List BlockEntry :=
    [.bare 1 0 0 1, .bare 1 100 7 2, .bare 16 150 7 4, .bare 16 400 7 9]
  { empty with
    db := { empty.db with blocks := blocks }
    hardfork := (addAll (empty.hardfork, ∅) 0 (blocks.map bl)).1 }

theorem forkedChain_difficulty : forkedChain.getNextDifficultyForAlternativeChain forkedBranch 4 =
      (joinedChain.getDifficultyForNextBlock (.accepting (fun _ => 7) (fun _ => 7))).1 := by
  have attached : forkedChain.AttachedAt forkedBranch 2 := by
    refine ⟨by decide, by decide, ?_⟩
    intro index bei found
    match index with
    | 0 => exact (Option.some.inj found) ▸ rfl
    | 1 => exact (Option.some.inj found) ▸ rfl
    | index + 2 => simp [forkedBranch] at found
  exact @getNextDifficultyForAlternativeChain_eq_joined forkedChain joinedChain
    forkedBranch 2 empty.hardfork ∅ _ attached rfl rfl rfl
    (mainnetHardForks_byHeight rfl rfl) rfl ⟨rfl, rfl⟩
    ⟨rfl, rfl, rfl, rfl, trivial⟩ rfl

end Blockchain

/-! ## Repaired cumulative difficulties -/

def difficultyWindowOf (values : List Nat) : List Nat :=
  values.rtake (min (values.length - 1) difficultyBlocksCount)

def slideWindow (window : List Nat) (height value : Nat) : List Nat :=
  let grown := if 0 < height then window ++ [value] else window
  if difficultyBlocksCount < grown.length then grown.tail else grown

theorem length_difficultyWindowOf (values : List Nat) :
    (difficultyWindowOf values).length ≤ difficultyBlocksCount := by
  rw [difficultyWindowOf, rtake, length_drop]
  omega

theorem difficultyWindowOf_append (values : List Nat) (value : Nat) :
    difficultyWindowOf (values ++ [value]) =
      slideWindow (difficultyWindowOf values) values.length value := by
  rw [slideWindow, difficultyWindowOf, difficultyWindowOf, rtake, rtake,
    length_append, length_singleton]
  rcases eq_zero_or_pos values.length with empty | pos
  · rw [length_eq_zero_iff.mp empty]
    simp
  · rw [if_pos pos]
    by_cases short : values.length ≤ difficultyBlocksCount
    · rw [← drop_append_of_le_length (by omega), if_neg]
      · congr 1
        omega
      · rw [length_drop, length_append, length_singleton]
        omega
    · rw [← drop_append_of_le_length (by omega), if_pos, tail_drop]
      · congr 1
        omega
      · rw [length_drop, length_append, length_singleton]
        omega

namespace BlockchainDB

def timestamps (db : BlockchainDB) : List Nat :=
  db.blocks.map fun entry => entry.bl.timestamp

def cumulativeDifficulties (db : BlockchainDB) : List Nat :=
  db.blocks.map BlockEntry.cumulativeDifficulty

/-- It throws when the values do not reach from the start to the top. -/
def correctBlockCumulativeDifficulties (db : BlockchainDB) (startHeight : Nat)
    (newCumulativeDifficulties : List Nat) : Option BlockchainDB :=
  if startHeight + newCumulativeDifficulties.length ≠ db.height then none
  else
    some { db with
      blocks := db.blocks.take startHeight ++ zipWith (fun entry difficulty =>
          { entry with cumulativeDifficulty := difficulty })
          (db.blocks.drop startHeight) newCumulativeDifficulties }

end BlockchainDB

namespace Blockchain

inductive RepairFailure where
  | difficultyOverflow
  | wrongTimestampsSize
  deriving DecidableEq

structure Repair where
  timestamps : List Nat
  difficulties : List Nat
  lastCumDiff : Nat
  driftStartHeight : Nat
  newCumulativeDifficulties : List Nat

def checkDifficultyPoints (db : BlockchainDB) : List (Nat × Nat) → Nat → Bool × Nat
  | [], res => (true, res)
  | point :: points, res =>
    if db.height ≤ point.1 then (true, res)
    else if db.cumulativeDifficultyAt point.1 ≠ point.2 then (false, res)
    else checkDifficultyPoints db points point.1

def loadWindow (values : List Nat) : Nat → Nat → List Nat → List Nat
  | 0, _, loaded => loaded
  | left + 1, height, loaded =>
    if height = 0 then loaded
    else loadWindow values left (height - 1) (values.getD height 0 :: loaded)

variable (chain : Blockchain)

def repairTarget (height : Nat) : Nat :=
  if chain.hardfork.getIdealVersion height < 2 then difficultyTargetV1
  else difficultyTargetV2

def startRepair (db : BlockchainDB) (startHeight : Nat) : Repair :=
  let load := fun values => if 1 < startHeight then
      loadWindow values difficultyBlocksCount (startHeight - 1) []
    else []
  let difficulties := load db.cumulativeDifficulties
  { timestamps := load db.timestamps
    difficulties
    lastCumDiff := if startHeight ≤ 1 then startHeight else difficulties.getLast?.getD 0
    driftStartHeight := 0
    newCumulativeDifficulties := [] }

def driftAfter (height : Nat) (repair : Repair) (recalculatedCumDiff : Nat) : Nat :=
  if repair.driftStartHeight = 0 then
    if recalculatedCumDiff ≠ chain.db.cumulativeDifficultyAt height then height else 0
  else repair.driftStartHeight

def advance (height : Nat) (repair : Repair) (recalculatedCumDiff : Nat) : Repair where
  timestamps := slideWindow repair.timestamps height (chain.db.timestamps.getD height 0)
  difficulties := slideWindow repair.difficulties height recalculatedCumDiff
  lastCumDiff := recalculatedCumDiff
  driftStartHeight := chain.driftAfter height repair recalculatedCumDiff
  newCumulativeDifficulties := if 0 < chain.driftAfter height repair recalculatedCumDiff then
      repair.newCumulativeDifficulties ++ [recalculatedCumDiff]
    else repair.newCumulativeDifficulties

def repairHeight (height : Nat) (repair : Repair) : Except RepairFailure Repair :=
  let recalculatedDiff :=
    nextDifficulty repair.timestamps repair.difficulties (chain.repairTarget height)
  let recalculatedCumDiff := recalculatedDiff + repair.lastCumDiff
  if 2 ^ 128 - 1 < recalculatedCumDiff then .error .difficultyOverflow
  else
    let size := repair.timestamps.length + if 0 < height then 1 else 0
    if difficultyBlocksCount < size ∧ size ≠ difficultyBlocksCount + 1 then
      .error .wrongTimestampsSize
    else .ok (chain.advance height repair recalculatedCumDiff)

def repairHeights (chain : Blockchain) : Nat → Nat → Repair → Except RepairFailure Repair
  | 0, _, repair => .ok repair
  | heights + 1, height, repair =>
    match chain.repairHeight height repair with
    | .error failure => .error failure
    | .ok after => chain.repairHeights heights (height + 1) after

def repairStart (difficultyPoints : List (Nat × Nat)) (startHeightOpt : Option Nat) : Nat :=
  startHeightOpt.getD (checkDifficultyPoints chain.db difficultyPoints 0).2

def writeRepair (repair : Repair) : Blockchain :=
  if 0 < repair.driftStartHeight then
    { chain with
      db := (chain.db.correctBlockCumulativeDifficulties repair.driftStartHeight
        repair.newCumulativeDifficulties).getD chain.db
      difficultyCache := { chain.difficultyCache with
        difficultyForNextBlockTopHash := nullHash
        timestampsAndDifficultiesHeight := 0 } }
  else chain

/-- `recalculate_difficulties`: the chain afterwards and the number of values that
were written. -/
def recalculateDifficulties (difficultyPoints : List (Nat × Nat))
    (startHeightOpt : Option Nat) : Except RepairFailure (Blockchain × Nat) :=
  if chain.fixedDifficulty ≠ 0 then .ok (chain, 0)
  else
    let startHeight := chain.repairStart difficultyPoints startHeightOpt
    match chain.repairHeights (chain.db.height - startHeight) startHeight
        (startRepair chain.db startHeight) with
    | .error failure => .error failure
    | .ok repair => .ok (chain.writeRepair repair, repair.newCumulativeDifficulties.length)

/-! ## The loop -/

def Follows (values : List Nat) (height : Nat) : Prop :=
  values.getD height 0 = values.getD (height - 1) 0 +
    nextDifficulty (difficultyWindowOf (chain.db.timestamps.take height))
      (difficultyWindowOf (values.take height)) (chain.repairTarget height)

/-- The local variables in front of the height that is the number of the correct
values. -/
structure Repaired (chain : Blockchain) (start : Nat) (values : List Nat)
    (repair : Repair) : Prop where
  reached : start ≤ values.length
  inside : values.length ≤ chain.db.height
  timestamps : repair.timestamps = difficultyWindowOf (chain.db.timestamps.take values.length)
  difficulties : repair.difficulties = difficultyWindowOf values
  last : repair.lastCumDiff = values.getLast?.getD 0
  kept : values.take start = chain.db.cumulativeDifficulties.take start
  follows : ∀ height, max start 1 ≤ height → height < values.length → chain.Follows values height
  drift : repair.driftStartHeight = 0 ∧ repair.newCumulativeDifficulties = [] ∧
      values = chain.db.cumulativeDifficulties.take values.length ∨
    0 < repair.driftStartHeight ∧ start ≤ repair.driftStartHeight ∧
      repair.driftStartHeight < values.length ∧ values.take repair.driftStartHeight =
        chain.db.cumulativeDifficulties.take repair.driftStartHeight ∧
      values.getD repair.driftStartHeight 0 ≠
        chain.db.cumulativeDifficulties.getD repair.driftStartHeight 0 ∧
      repair.newCumulativeDifficulties = values.drop repair.driftStartHeight

variable {chain : Blockchain} {start : Nat} {values : List Nat} {repair : Repair}

theorem getD_eq_of_take_eq {left right : List Nat} {count index : Nat}
    (same : left.take count = right.take count) (below : index < count) :
    left.getD index 0 = right.getD index 0 := by
  have entries := congrArg (·.getD index 0) same
  simpa [getD_eq_getElem?_getD, getElem?_take_of_lt below] using entries

theorem length_timestamps (db : BlockchainDB) : db.timestamps.length = db.height :=
  length_map _

theorem length_cumulativeDifficulties (db : BlockchainDB) :
    db.cumulativeDifficulties.length = db.height :=
  length_map _

theorem take_succ_getD {values : List Nat} {height : Nat} (lt : height < values.length) :
    values.take (height + 1) = values.take height ++ [values.getD height 0] := by
  rw [take_succ_eq_append_getElem lt, getD_eq_getElem _ _]

theorem loadWindow_eq {values : List Nat} {left height : Nat} (loaded : List Nat)
    (lt : height < values.length) : loadWindow values left height loaded =
      (values.take (height + 1)).rtake (min height left) ++ loaded := by
  induction left generalizing height loaded with
  | zero => simp [loadWindow]
  | succ left ih =>
    rw [loadWindow]
    cases height with
    | zero => simp
    | succ height =>
      have more : min (height + 1) (left + 1) = min height left + 1 := by omega
      rw [if_neg (Nat.succ_ne_zero height), Nat.add_sub_cancel,
        ih _ (by omega), take_succ_getD lt, more, rtake_concat_succ,
        append_assoc, singleton_append]

theorem loadWindow_start {values : List Nat} (later : 1 < start) (lt : start ≤ values.length) :
    loadWindow values difficultyBlocksCount (start - 1) [] =
      difficultyWindowOf (values.take start) := by
  rw [loadWindow_eq [] (by omega), append_nil, difficultyWindowOf,
    length_take_of_le lt, Nat.sub_add_cancel (by omega)]

theorem getLast?_difficultyWindowOf {values : List Nat} (two : 1 < values.length) :
    (difficultyWindowOf values).getLast? = values.getLast? := by
  rw [difficultyWindowOf, rtake, getLast?_drop, if_neg]
  rw [difficultyBlocksCount, difficultyWindow]
  omega

theorem difficultyWindowOf_short {values : List Nat} (short : values.length ≤ 1) :
    difficultyWindowOf values = [] := by
  rw [difficultyWindowOf, Nat.sub_eq_zero_of_le short]
  simp

theorem startRepair_repaired (genesis : chain.db.cumulativeDifficulties[0]? = some 1)
    (lt : start < chain.db.height) :
    chain.Repaired start (chain.db.cumulativeDifficulties.take start)
      (startRepair chain.db start) := by
  have sizeT := length_timestamps chain.db
  have sizeD := length_cumulativeDifficulties chain.db
  have length : (chain.db.cumulativeDifficulties.take start).length = start :=
    length_take_of_le (by omega)
  refine ⟨length.ge, by omega, ?_, ?_, ?_, ?_, ?_, Or.inl ⟨rfl, rfl, by rw [length]⟩⟩
  · rw [length, startRepair]
    simp only
    split_ifs with later
    · exact loadWindow_start later (by omega)
    · rw [difficultyWindowOf_short]
      rw [length_take_of_le (by omega)]
      omega
  · rw [startRepair]
    simp only
    split_ifs with later
    · exact loadWindow_start later (by omega)
    · rw [difficultyWindowOf_short (by omega)]
  · rw [startRepair]
    simp only
    split_ifs with early later
    · rcases Nat.le_one_iff_eq_zero_or_eq_one.mp early with rfl | rfl
      · rfl
      · cases values : chain.db.cumulativeDifficulties with
        | nil => simp [values] at genesis
        | cons first rest =>
          rw [values] at genesis
          simpa using genesis.symm
    · rw [loadWindow_start later (by omega), getLast?_difficultyWindowOf (by omega)]
    · omega
  · rw [take_take, min_self]
  · intro height above below
    omega

theorem Follows.append {height : Nat} (follows : chain.Follows values height)
    (lt : height < values.length) (more : List Nat) :
    chain.Follows (values ++ more) height := by
  rw [Follows] at *
  rw [getD_append _ _ _ _ lt, getD_append _ _ _ _ (by omega),
    take_append_of_le_length lt.le]
  exact follows

def nextValue (chain : Blockchain) (values : List Nat) : Nat :=
  nextDifficulty (difficultyWindowOf (chain.db.timestamps.take values.length))
    (difficultyWindowOf values) (chain.repairTarget values.length) +
    values.getLast?.getD 0

theorem follows_nextValue (ne : values ≠ []) :
    chain.Follows (values ++ [chain.nextValue values]) values.length := by
  have pos := length_pos_iff.mpr ne
  have last : (values ++ [chain.nextValue values]).getD values.length 0 =
      chain.nextValue values := by
    simp
  have before : (values ++ [chain.nextValue values]).getD (values.length - 1) 0 =
      values.getLast?.getD 0 := by
    rw [getD_append _ _ _ _ (by omega), getLast?_eq_getElem?, getD_eq_getElem?_getD]
  rw [Follows, last, before, take_left, nextValue, add_comm]

section

variable (repaired : chain.Repaired start values repair)

include repaired

theorem Repaired.repairHeight_eq :
    chain.repairHeight values.length repair = if 2 ^ 128 - 1 < chain.nextValue values then
        .error .difficultyOverflow
      else
        .ok (chain.advance values.length repair (chain.nextValue values)) := by
  have window := length_difficultyWindowOf (chain.db.timestamps.take values.length)
  have size : ¬(difficultyBlocksCount <
        repair.timestamps.length + (if 0 < values.length then 1 else 0) ∧
      repair.timestamps.length + (if 0 < values.length then 1 else 0) ≠
        difficultyBlocksCount + 1) := by
    rw [repaired.timestamps]
    split_ifs <;> omega
  rw [repairHeight]
  rw [if_neg size, repaired.timestamps, repaired.difficulties, repaired.last]
  rfl

section

variable (genesis : chain.db.cumulativeDifficulties[0]? = some 1)
  (below : values.length < chain.db.height)

include genesis below

theorem Repaired.drift_advance :
    let after := chain.advance values.length repair (chain.nextValue values)
    let longer := values ++ [chain.nextValue values]
    after.driftStartHeight = 0 ∧ after.newCumulativeDifficulties = [] ∧
        longer = chain.db.cumulativeDifficulties.take longer.length ∨
      0 < after.driftStartHeight ∧ start ≤ after.driftStartHeight ∧
        after.driftStartHeight < longer.length ∧
        longer.take after.driftStartHeight =
          chain.db.cumulativeDifficulties.take after.driftStartHeight ∧
        longer.getD after.driftStartHeight 0 ≠
          chain.db.cumulativeDifficulties.getD after.driftStartHeight 0 ∧
        after.newCumulativeDifficulties = longer.drop after.driftStartHeight := by
  have sizeD := length_cumulativeDifficulties chain.db
  have existing : chain.db.cumulativeDifficultyAt values.length =
      chain.db.cumulativeDifficulties.getD values.length 0 := rfl
  have longer : (values ++ [chain.nextValue values]).length = values.length + 1 := by simp
  have reached := repaired.reached
  simp only [advance, driftAfter, existing, longer]
  rcases repaired.drift with ⟨none_, noValues, same⟩ | ⟨found, afterStart, lt, same, ne, written⟩
  · rw [if_pos none_, noValues]
    by_cases eq : chain.nextValue values = chain.db.cumulativeDifficulties.getD values.length 0
    · rw [if_neg (not_not.mpr eq)]
      refine Or.inl ⟨rfl, rfl, ?_⟩
      rw [take_succ_getD (by omega), ← same, eq]
    · have pos : 0 < values.length := by
        by_contra zero
        obtain rfl : values = [] := eq_nil_of_length_eq_zero (by omega)
        rw [length_nil, getD_eq_getElem?_getD, genesis] at eq
        exact eq rfl
      rw [if_pos eq, if_pos pos]
      refine Or.inr ⟨pos, reached, Nat.lt_succ_self _, ?_, ?_, ?_⟩
      · rw [take_left]
        exact same
      · simpa using eq
      · rw [drop_left, nil_append]
  · rw [if_neg found.ne', if_pos found]
    refine Or.inr ⟨found, afterStart, by omega, ?_, ?_, ?_⟩
    · rw [take_append_of_le_length lt.le]
      exact same
    · rw [getD_append _ _ _ _ lt]
      exact ne
    · rw [drop_append_of_le_length lt.le, written]

theorem Repaired.advance : chain.Repaired start (values ++ [chain.nextValue values])
      (chain.advance values.length repair (chain.nextValue values)) := by
  have sizeT := length_timestamps chain.db
  have longer : (values ++ [chain.nextValue values]).length = values.length + 1 := by simp
  have reached := repaired.reached
  refine ⟨by omega, by omega, ?_, ?_, by simp [Blockchain.advance], ?_, ?_,
    repaired.drift_advance genesis below⟩
  · have taken : (chain.db.timestamps.take values.length).length = values.length :=
      length_take_of_le (by omega)
    rw [longer, take_succ_getD (by omega), difficultyWindowOf_append, taken, ← repaired.timestamps]
    rfl
  · rw [difficultyWindowOf_append, ← repaired.difficulties]
    rfl
  · rw [take_append_of_le_length reached]
    exact repaired.kept
  · intro height above lt
    rw [longer] at lt
    rcases lt_or_eq_of_le (Nat.le_of_lt_succ lt) with prev | rfl
    · exact (repaired.follows height above prev).append prev _
    · apply follows_nextValue
      rintro rfl
      simp at above

end

theorem Repaired.repairHeights {heights : Nat}
    (genesis : chain.db.cumulativeDifficulties[0]? = some 1)
    (whole : values.length + heights = chain.db.height)
    (noOverflow : chain.repairHeights heights values.length repair ≠ .error .difficultyOverflow) :
    ∃ final after, chain.repairHeights heights values.length repair = .ok after ∧
      final.length = chain.db.height ∧ chain.Repaired start final after := by
  induction heights generalizing values repair with
  | zero => exact ⟨values, repair, rfl, whole, repaired⟩
  | succ heights ih =>
    rw [repairHeights, repaired.repairHeight_eq] at noOverflow ⊢
    split_ifs at noOverflow ⊢ with overflow
    · exact absurd rfl noOverflow
    · have longer : (values ++ [chain.nextValue values]).length = values.length + 1 := by simp
      rw [← longer] at noOverflow ⊢
      exact ih (repaired.advance genesis (by omega)) (by omega) noOverflow

end

/-! ## The whole repair -/

def withoutDifficulty (entry : BlockEntry) : BlockEntry :=
  { entry with cumulativeDifficulty := 0 }

theorem map_zipWith_difficulty {entries : List BlockEntry} {difficulties : List Nat}
    (same : entries.length = difficulties.length) : (zipWith (fun entry difficulty =>
        { entry with cumulativeDifficulty := difficulty }) entries difficulties).map
        BlockEntry.cumulativeDifficulty = difficulties ∧
      (zipWith (fun entry difficulty =>
        { entry with cumulativeDifficulty := difficulty }) entries difficulties).map
        withoutDifficulty = entries.map withoutDifficulty := by
  induction entries generalizing difficulties with
  | nil =>
    rw [eq_nil_of_length_eq_zero same.symm]
    exact ⟨rfl, rfl⟩
  | cons entry entries ih =>
    cases difficulties with
    | nil => cases same
    | cons difficulty difficulties =>
      obtain ⟨values, blocks⟩ := ih (Nat.succ.inj same)
      simp only [zipWith_cons_cons, map_cons, values, blocks]
      exact ⟨trivial, rfl⟩

theorem Repaired.writeRepair (repaired : chain.Repaired start values repair)
    (length : values.length = chain.db.height) :
    (chain.writeRepair repair).db.cumulativeDifficulties = values ∧
      (chain.writeRepair repair).db.blocks.map withoutDifficulty =
        chain.db.blocks.map withoutDifficulty := by
  have sizeD := length_cumulativeDifficulties chain.db
  rw [Blockchain.writeRepair]
  rcases repaired.drift with ⟨none_, -, same⟩ | ⟨found, -, lt, same, -, written⟩
  · rw [if_neg (by omega)]
    refine ⟨?_, rfl⟩
    rw [length, ← sizeD, take_length] at same
    exact same.symm
  · have fits : ¬repair.driftStartHeight + repair.newCumulativeDifficulties.length ≠
        chain.db.height := by
      rw [written, length_drop]
      omega
    have lengths : (chain.db.blocks.drop repair.driftStartHeight).length =
        repair.newCumulativeDifficulties.length := by
      rw [written, length_drop, length_drop, length]
      rfl
    obtain ⟨difficulties, blocks⟩ := map_zipWith_difficulty lengths
    rw [if_pos found, correctBlockCumulativeDifficulties, if_neg fits,
      Option.getD_some]
    refine ⟨?_, ?_⟩
    · rw [cumulativeDifficulties, map_append, difficulties, map_take, written]
      exact (congrArg (· ++ _) same.symm).trans (take_append_drop _ _)
    · rw [map_append, blocks, ← map_append, take_append_drop]

theorem writeRepair_hardfork (chain : Blockchain) (repair : Repair) :
    (chain.writeRepair repair).hardfork = chain.hardfork := by
  rw [writeRepair]
  split_ifs <;> rfl

def FollowsFrom (chain : Blockchain) (start : Nat) : Prop :=
  ∀ height, max start 1 ≤ height → height < chain.db.height →
    chain.Follows chain.db.cumulativeDifficulties height

theorem Repaired.drift_eq_zero (repaired : chain.Repaired start values repair)
    (length : values.length = chain.db.height) (follows : chain.FollowsFrom start) :
    repair.driftStartHeight = 0 ∧ repair.newCumulativeDifficulties = [] := by
  rcases repaired.drift with ⟨none_, noValues, -⟩ | ⟨found, afterStart, lt, same, ne, -⟩
  · exact ⟨none_, noValues⟩
  · have before : ∀ height < repair.driftStartHeight,
        values.getD height 0 = chain.db.cumulativeDifficulties.getD height 0 :=
      fun height below => getD_eq_of_take_eq same below
    have stored := follows repair.driftStartHeight (by omega) (by omega)
    have computed := repaired.follows _ (by omega) lt
    rw [Follows] at stored computed
    rw [before (repair.driftStartHeight - 1) (by omega), same, ← stored] at computed
    exact absurd computed ne

section

variable {after : Blockchain}
  (blocks : after.db.blocks.map withoutDifficulty = chain.db.blocks.map withoutDifficulty)

include blocks

theorem height_eq_of_withoutDifficulty : after.db.height = chain.db.height := by
  have lengths := congrArg length blocks
  simpa [height] using lengths

theorem timestamps_eq_of_withoutDifficulty : after.db.timestamps = chain.db.timestamps := by
  have entries := congrArg (map fun entry : BlockEntry => entry.bl.timestamp) blocks
  simpa [timestamps, withoutDifficulty, Function.comp_def] using entries

end

/-- From the start on, the genesis block apart, each cumulative difficulty is the one below plus the
difficulty the blocks before ask for. All else is unchanged, and so is a chain whose values were
correct. -/
theorem recalculateDifficulties_spec {difficultyPoints : List (Nat × Nat)}
    {startHeightOpt : Option Nat} (unfixed : chain.fixedDifficulty = 0)
    (genesis : chain.db.cumulativeDifficulties[0]? = some 1)
    (inside : chain.repairStart difficultyPoints startHeightOpt < chain.db.height)
    (noOverflow : chain.recalculateDifficulties difficultyPoints startHeightOpt ≠
      .error .difficultyOverflow) :
    ∃ after count, chain.recalculateDifficulties difficultyPoints startHeightOpt =
        .ok (after, count) ∧ after.FollowsFrom (chain.repairStart difficultyPoints startHeightOpt) ∧
      (∀ height < chain.repairStart difficultyPoints startHeightOpt,
        after.db.cumulativeDifficultyAt height = chain.db.cumulativeDifficultyAt height) ∧
      after.db.blocks.map withoutDifficulty = chain.db.blocks.map withoutDifficulty ∧
      (chain.FollowsFrom (chain.repairStart difficultyPoints startHeightOpt) →
        after = chain ∧ count = 0) := by
  have sizeD := length_cumulativeDifficulties chain.db
  have begun := startRepair_repaired genesis inside
  have length : (chain.db.cumulativeDifficulties.take
      (chain.repairStart difficultyPoints startHeightOpt)).length =
      chain.repairStart difficultyPoints startHeightOpt :=
    length_take_of_le (by omega)
  rw [recalculateDifficulties, if_neg (not_not.mpr unfixed)] at noOverflow ⊢
  simp only at noOverflow ⊢
  have heights : (chain.db.cumulativeDifficulties.take
      (chain.repairStart difficultyPoints startHeightOpt)).length +
      (chain.db.height - chain.repairStart difficultyPoints startHeightOpt) =
      chain.db.height := by
    omega
  obtain ⟨final, repair, looped, whole, repaired⟩ := begun.repairHeights genesis heights (by
      intro overflow
      rw [length] at overflow
      rw [overflow] at noOverflow
      exact noOverflow rfl)
  rw [length] at looped
  obtain ⟨difficulties, blocks⟩ := repaired.writeRepair whole
  have height := height_eq_of_withoutDifficulty blocks
  have timestamps := timestamps_eq_of_withoutDifficulty blocks
  rw [looped]
  refine ⟨_, _, rfl, ?_, ?_, blocks, ?_⟩
  · intro at_ above below
    rw [height] at below
    have computed := repaired.follows at_ above (by omega)
    rw [Follows, repairTarget] at *
    rw [difficulties, timestamps, writeRepair_hardfork]
    exact computed
  · intro at_ below
    change (chain.writeRepair repair).db.cumulativeDifficulties.getD at_ 0 =
      chain.db.cumulativeDifficulties.getD at_ 0
    rw [difficulties]
    exact getD_eq_of_take_eq repaired.kept below
  · intro follows
    obtain ⟨none_, noValues⟩ := repaired.drift_eq_zero whole follows
    rw [writeRepair, none_, noValues]
    exact ⟨rfl, rfl⟩

def driftedChain : Blockchain :=
  { empty with
    db := { empty.db with
        blocks := [.bare 1 0 0 1, .bare 1 100 7 5, .bare 1 160 7 6] } }

theorem driftedChain_repaired :
    ∃ after count, driftedChain.recalculateDifficulties [] (some 0) = .ok (after, count) ∧
      after.FollowsFrom 0 := by
  have noOverflow : driftedChain.recalculateDifficulties [] (some 0) ≠
      .error .difficultyOverflow := by
    rintro ⟨⟩
  have inside : driftedChain.repairStart [] (some 0) < driftedChain.db.height := by decide
  obtain ⟨after, count, repaired, follows, -⟩ :=
    recalculateDifficulties_spec rfl rfl inside noOverflow
  exact ⟨after, count, repaired, follows⟩

end Blockchain

end LodeChain

import LodeChain.AlternativeCoins

/-!
# A node that is handed a tree of blocks

The stored blocks of a node that has received part of a tree: where each of them stands, and the
work of the path to it.
-/

namespace LodeChain

open WrappedArithmetic LinkedPaths List BlockchainDB Blockchain

def BlockExtendedInfo.work (bei : BlockExtendedInfo) : Nat × Nat :=
  (bei.bl.timestamp, bei.cumulativeDifficulty)

/-- The alternative blocks met on the way down from an id, oldest first. -/
inductive Walk (table : AList fun _ : Hash => BlockExtendedInfo) :
    Hash → List BlockExtendedInfo → Prop
  | root {id : Hash} (absent : table.lookup id = none) : Walk table id []
  | step {id : Hash} {bei : BlockExtendedInfo} {rest : List BlockExtendedInfo}
      (found : table.lookup id = some bei)
      (below : Walk table bei.bl.prevId rest) : Walk table id (rest ++ [bei])

variable {table : AList fun _ : Hash => BlockExtendedInfo} {id : Hash}
  {altChain : List BlockExtendedInfo} {bei : BlockExtendedInfo}

theorem Walk.altWalk_eq {branch : List BlockExtendedInfo} (walk : Walk table id branch)
    {fuel : Nat} (enough : branch.length ≤ fuel) : altWalk table fuel id [] = branch := by
  induction walk generalizing fuel with
  | root absent =>
    cases fuel with
    | zero => rfl
    | succ fuel => rw [altWalk, absent]
  | @step id bei rest found below ih =>
    cases fuel with
    | zero => simp at enough
    | succ fuel =>
      have shorter : rest.length ≤ fuel := by simpa using enough
      rw [altWalk, found]
      dsimp only
      rw [altWalk_eq_append, ih shorter]

theorem Walk.insert {added : Hash} {branch : List BlockExtendedInfo} (walk : Walk table id branch)
    (isNew : table.lookup added = none)
    (apart : (branch.head?.map fun front => front.bl.prevId).getD id ≠ added)
    (bei : BlockExtendedInfo) : Walk (table.insert added bei) id branch := by
  induction walk with
  | root absent =>
    have notAdded : _ ≠ added := apart
    exact .root ((AList.lookup_insert_ne notAdded).trans absent)
  | @step id other rest found below ih =>
    have distinct : id ≠ added := by
      rintro rfl
      rw [isNew] at found
      simp at found
    refine .step ((AList.lookup_insert_ne distinct).trans found) (ih ?_)
    cases rest with
    | nil => exact apart
    | cons front others => exact apart

namespace Blockchain

def branchPath (chain : Blockchain) (branch : List BlockExtendedInfo) (fork : Nat) : List Block :=
  (branch.map BlockExtendedInfo.bl).reverse ++
    ((chain.db.blocks.take fork).map BlockEntry.bl).reverse

/-- The first `fork` main-chain blocks and a branch on them are ancestors. -/
structure OnBranch (env : Env) (rule : WorkRule) (chain : Blockchain)
    (block : Block) (branch : List BlockExtendedInfo) (fork : Nat) : Prop where
  walk : Walk chain.db.altBlocks block.prevId branch
  stored : chain.db.blockExists env (branchRoot branch block) = true
  root : chain.db.getBlockHeight env (branchRoot branch block) + 1 = fork
  heights : ∀ index bei, branch[index]? = some bei → bei.height = fork + index
  short : branch.length ≤ chain.db.altBlocks.keys.length
  linked : Linked env.getBlockHash Block.prevId nullHash (block :: chain.branchPath branch fork)
  worked : (chain.db.blocks.take fork).map BlockEntry.work ++ branch.map BlockExtendedInfo.work =
    rule.pathWork (chain.branchPath branch fork)

variable {env : Env} {rule : WorkRule} {chain : Blockchain} {block : Block}
  {branch : List BlockExtendedInfo} {fork : Nat}

section

variable (onBranch : OnBranch env rule chain block branch fork)

include onBranch

theorem OnBranch.inside : fork ≤ chain.db.height := by
  have below := getBlockHeight_lt onBranch.stored
  have root := onBranch.root
  omega

theorem OnBranch.attachedAt : chain.AttachedAt branch fork := by
  have root := onBranch.root
  exact ⟨by omega, onBranch.inside, onBranch.heights⟩

theorem OnBranch.length_branchPath :
    (chain.branchPath branch fork).length = fork + branch.length := by
  have lt : fork ≤ chain.db.blocks.length := onBranch.inside
  simp [branchPath, List.length_take]
  omega

theorem OnBranch.difficulty (synced : SyncedChain rule chain) :
    chain.getNextDifficultyForAlternativeChain branch (fork + branch.length) =
      rule.difficultyAfter (rule.pathWork (chain.branchPath branch fork)) := by
  have pos := onBranch.attachedAt.positive
  have lt : fork ≤ chain.db.blocks.length := onBranch.inside
  have length := onBranch.length_branchPath
  have window := alternativeWindow_eq_rtake onBranch.attachedAt
  have joined : (chain.db.blocks.take fork).map
        (fun entry => (entry.bl.timestamp, entry.cumulativeDifficulty)) ++
      branch.map (fun bei => (bei.bl.timestamp, bei.cumulativeDifficulty)) =
        rule.pathWork (chain.branchPath branch fork) := onBranch.worked
  rw [joined] at window
  have version : chain.hardfork.getIdealVersion (fork + branch.length) =
      rule.table.versionAt (fork + branch.length) := by
    rw [HardFork.getIdealVersion_eq_versionAt synced.hardfork.byHeight, synced.table.versionAt]
  unfold getNextDifficultyForAlternativeChain WorkRule.difficultyAfter
  rw [synced.fixedDifficulty, WorkRule.length_pathWork, length, window, version]
  split
  · rw [if_neg (by rw [height]; omega), if_neg (by omega)]
  · rfl

theorem OnBranch.altChainTo_eq : chain.db.altChainTo block.prevId = branch :=
  onBranch.walk.altWalk_eq onBranch.short

theorem OnBranch.alternativeParent :
    (chain.alternativeParent env block.prevId branch).height + 1 = fork + branch.length ∧
      (chain.alternativeParent env block.prevId branch).cumulativeDifficulty = WorkRule.lastWork
          (rule.pathWork (chain.branchPath branch fork)) := by
  have lt : fork ≤ chain.db.blocks.length := onBranch.inside
  have root := onBranch.root
  rw [← onBranch.worked]
  rcases eq_nil_or_concat' branch with rfl | ⟨rest, last, rfl⟩
  · have rootHeight : chain.db.getBlockHeight env block.prevId + 1 = fork := root
    constructor
    · simpa [alternativeParent] using rootHeight
    · have index : fork - 1 = chain.db.getBlockHeight env block.prevId := by omega
      simp only [alternativeParent, getLast?_nil, map_nil,
        append_nil, WorkRule.lastWork, cumulativeDifficultyAt]
      rw [getLast?_map, getLast?_take, if_neg (by omega), index,
        getD_eq_getElem?_getD, getElem?_map]
      have below : chain.db.getBlockHeight env block.prevId <
          chain.db.blocks.length := by
        omega
      rw [getElem?_eq_getElem below]
      rfl
  · have height := onBranch.heights rest.length last (by simp)
    constructor
    · simp [alternativeParent]
      omega
    · simp [alternativeParent, ← append_assoc, WorkRule.lastWork_append_singleton]
      rfl

theorem OnBranch.accepted (synced : SyncedChain rule chain)
    (accepted : AcceptedAlternative env chain block altChain bei) :
    altChain = branch ∧ bei.height = fork + branch.length ∧
      rule.difficultyAfter (rule.pathWork (chain.branchPath branch fork)) ≠ 0 ∧
      bei.cumulativeDifficulty = rule.workAfter (rule.pathWork (chain.branchPath branch fork)) := by
  obtain ⟨times, built⟩ := accepted.built
  have walked : altChain = branch := (buildAltChain_eq_some built).1.trans onBranch.altChainTo_eq
  subst walked
  obtain ⟨parentHeight, parentWork⟩ := onBranch.alternativeParent
  have height : bei.height = fork + altChain.length := accepted.height.trans parentHeight
  have difficulty := onBranch.difficulty synced
  have pos := accepted.difficultyPos
  have work := accepted.cumulativeDifficulty
  rw [height, difficulty] at pos work
  refine ⟨rfl, height, pos, ?_⟩
  rw [work, parentWork, WorkRule.workAfter, addMod, addMod, add_comm]

end

theorem OnBranch.of_main (synced : SyncedChain rule chain)
    (sound : ListFacts.EachAfter (SoundEntry env) chain.db.blocks)
    (absent : chain.db.altBlocks.lookup block.prevId = none)
    (stored : chain.db.blockExists env block.prevId = true) :
    OnBranch env rule chain block [] (chain.db.getBlockHeight env block.prevId + 1) where
  walk := .root absent
  stored := stored
  root := rfl
  heights := by simp
  short := Nat.zero_le _
  linked := by
    refine ⟨?_, linked_of_sound (sound.take _)⟩
    have last := lastBlockHash_getBlockHeight stored
    rw [lastBlockHash_eq_tipId] at last
    exact last.symm
  worked := by
    rw [map_nil, append_nil]
    exact map_work_eq_pathWork (synced.worked.take _)

theorem branchPath_append_singleton (chain : Blockchain)
    (branch : List BlockExtendedInfo) (bei : BlockExtendedInfo) (fork : Nat) :
    chain.branchPath (branch ++ [bei]) fork = bei.bl :: chain.branchPath branch fork := by
  simp [branchPath]

theorem branchRoot_append_singleton (branch : List BlockExtendedInfo) (bei : BlockExtendedInfo) :
    branchRoot (branch ++ [bei]) block = branchRoot branch bei.bl := by
  cases branch with
  | nil => rfl
  | cons front rest => rfl

theorem length_le_keys_of_stored
    (heights : ∀ index bei, branch[index]? = some bei → bei.height = fork + index)
    (stored : ∀ bei ∈ branch, table.lookup (env.getBlockHash bei.bl) = some bei) :
    branch.length ≤ table.keys.length := by
  have distinct : (branch.map fun bei => env.getBlockHash bei.bl).Nodup := by
    rw [nodup_iff_injective_get]
    intro left right same
    have leftInside : left.val < branch.length := by simpa using left.isLt
    have rightInside : right.val < branch.length := by simpa using right.isLt
    have leftFound := stored _ (getElem_mem leftInside)
    have rightFound := stored _ (getElem_mem rightInside)
    simp at same
    rw [same, rightFound, Option.some.injEq] at leftFound
    have leftHeight := heights _ _ (getElem?_eq_getElem leftInside)
    have rightHeight := heights _ _ (getElem?_eq_getElem rightInside)
    rw [leftFound] at rightHeight
    apply Fin.ext
    omega
  have subset : (branch.map fun bei => env.getBlockHash bei.bl) ⊆ table.keys := by
    intro id mem
    obtain ⟨bei, lt, rfl⟩ := mem_map.mp mem
    rw [← AList.mem_keys, ← AList.lookup_isSome, stored bei lt]
    rfl
  have bounded := (subperm_of_subset distinct subset).length_le
  rwa [length_map] at bounded

theorem OnBranch.extend (onBranch : OnBranch env rule chain bei.bl branch fork)
    (named : block.prevId = env.getBlockHash bei.bl) (height : bei.height = fork + branch.length)
    (work : bei.cumulativeDifficulty =
      rule.workAfter (rule.pathWork (chain.branchPath branch fork)))
    (stored : ∀ other ∈ branch ++ [bei],
      chain.db.altBlocks.lookup (env.getBlockHash other.bl) = some other) :
    OnBranch env rule chain block (branch ++ [bei]) fork := by
  have heights : ∀ index other, (branch ++ [bei])[index]? = some other →
      other.height = fork + index := by
    intro index other present
    rcases lt_trichotomy index branch.length with below | rfl | above
    · rw [getElem?_append_left below] at present
      exact onBranch.heights index other present
    · rw [getElem?_concat_length, Option.some.injEq] at present
      rw [← present, height]
    · rw [getElem?_eq_none (by simpa using above)] at present
      simp at present
  constructor
  · refine .step ?_ onBranch.walk
    rw [named]
    exact stored bei (mem_append_right _ mem_cons_self)
  · rw [branchRoot_append_singleton]
    exact onBranch.stored
  · rw [branchRoot_append_singleton]
    exact onBranch.root
  · exact heights
  · exact length_le_keys_of_stored heights stored
  · rw [branchPath_append_singleton]
    exact ⟨named, onBranch.linked⟩
  · rw [branchPath_append_singleton, map_append, ← append_assoc,
      onBranch.worked, WorkRule.pathWork, ← work]
    rfl

theorem OnBranch.buildAltChain_ne_none (onBranch : OnBranch env rule chain block branch fork)
    (leaves : branch = [] ∨ fork < chain.db.height) :
    chain.db.buildAltChain env block.prevId ≠ none := by
  have stored := onBranch.stored
  unfold buildAltChain
  rw [onBranch.altChainTo_eq]
  cases branch with
  | nil =>
    have known : chain.db.blockExists env block.prevId = true := stored
    simp [known]
  | cons front rest =>
    have height : front.height = fork := onBranch.heights 0 front rfl
    have known : chain.db.blockExists env front.bl.prevId = true := stored
    have lower : fork < chain.db.height := by simpa using leaves
    have root : chain.db.getBlockHeight env front.bl.prevId + 1 = fork := onBranch.root
    have named : chain.db.getBlockIdByHeight env (front.height - 1) =
        front.bl.prevId := by
      have index : front.height - 1 = chain.db.getBlockHeight env front.bl.prevId := by omega
      have mem := idxOf_lt_length_iff.mpr (contains_iff_mem.mp known)
      rw [index]
      unfold BlockchainDB.getBlockIdByHeight BlockchainDB.getBlockHeight
      rw [getD_eq_getElem _ _]
      exact getElem_idxOf mem
    dsimp only
    rw [if_neg (by omega), if_neg (by simp [known]), if_neg (by simp [named])]
    simp

theorem checkOnBranch_structural {times : List Nat} :
    chain.checkOnBranch env block id altChain times ≠ .brokenBranch ∧
      chain.checkOnBranch env block id altChain times ≠ .orphaned ∧
      (chain.checkOnBranch env block id altChain times = .duplicate →
        (chain.db.altBlocks.lookup id).isSome = true) := by
  unfold checkOnBranch
  dsimp only
  repeat' split
  all_goals simp_all

theorem checkAlternativeBlock_structural :
    (chain.checkAlternativeBlock env block id = .brokenBranch →
      chain.db.buildAltChain env block.prevId = none) ∧
    (chain.checkAlternativeBlock env block id = .duplicate →
      (chain.db.altBlocks.lookup id).isSome = true) ∧
    (chain.checkAlternativeBlock env block id = .orphaned →
      chain.db.altBlocks.lookup block.prevId = none ∧
        chain.db.blockExists env block.prevId = false) := by
  unfold checkAlternativeBlock
  dsimp only
  split
  · simp
  · split
    · simp
    · split
      · simp
      · split
        · split
          · rename_i failed
            simp [failed]
          · rename_i altChain times built
            obtain ⟨notBroken, notOrphaned, duplicate⟩ :=
              checkOnBranch_structural
            exact ⟨fun broken => absurd broken notBroken, duplicate,
              fun orphaned => absurd orphaned notOrphaned⟩
        · rename_i unknown
          simpa using unknown

end Blockchain

/-! ## What the node has stored -/

open BlockEntry

/-- Blocks with distinct ids, none of them null: the links to the parents make
them a tree. -/
structure BlockTree (env : Env) where
  blocks : Set Block
  distinct : Set.InjOn env.getBlockHash blocks
  notNull : ∀ block ∈ blocks, env.getBlockHash block ≠ nullHash

def BlockTree.Fits {env : Env} (tree : BlockTree env) (rule : WorkRule) : Prop :=
  ∀ block path, Linked env.getBlockHash Block.prevId nullHash (block :: path) →
    (∀ other ∈ block :: path, other ∈ tree.blocks) →
    rule.difficultyAfter (rule.pathWork path) + WorkRule.lastWork (rule.pathWork path) < 2 ^ 128

variable {path : List Block} {branch : List BlockExtendedInfo}

section Tree

variable {env : Env} {tree : BlockTree env} {rule : WorkRule}

theorem BlockTree.path_unique (tree : BlockTree env) {block : Block} {left right : List Block}
    (leftLinked : Linked env.getBlockHash Block.prevId nullHash (block :: left))
    (leftKnown : ∀ other ∈ left, other ∈ tree.blocks)
    (rightLinked : Linked env.getBlockHash Block.prevId nullHash (block :: right))
    (rightKnown : ∀ other ∈ right, other ∈ tree.blocks) : left = right :=
  Linked.unique tree.distinct tree.notNull leftKnown rightKnown leftLinked rightLinked

theorem BlockTree.Fits.lastWork_cons (fits : tree.Fits rule) {block : Block} {path : List Block}
    (linked : Linked env.getBlockHash Block.prevId nullHash (block :: path))
    (known : ∀ other ∈ block :: path, other ∈ tree.blocks) :
    WorkRule.lastWork (rule.pathWork (block :: path)) = rule.difficultyAfter (rule.pathWork path) +
        WorkRule.lastWork (rule.pathWork path) := by
  rw [WorkRule.pathWork, WorkRule.lastWork_append_singleton]
  exact Nat.mod_eq_of_lt (fits block path linked known)

theorem BlockTree.Fits.lastWork_le (fits : tree.Fits rule) {newer older : List Block}
    (linked : Linked env.getBlockHash Block.prevId nullHash (newer ++ older))
    (known : ∀ other ∈ newer ++ older, other ∈ tree.blocks) :
    WorkRule.lastWork (rule.pathWork older) ≤
      WorkRule.lastWork (rule.pathWork (newer ++ older)) := by
  induction newer with
  | nil => exact le_rfl
  | cons block rest ih =>
    have below := ih linked.tail (fun other mem => known other (mem_cons_of_mem _ mem))
    have grown := @BlockTree.Fits.lastWork_cons env tree rule fits block
      (rest ++ older) linked known
    rw [cons_append]
    omega

theorem BlockTree.ids_nodup (tree : BlockTree env)
    (linked : Linked env.getBlockHash Block.prevId nullHash path)
    (known : ∀ other ∈ path, other ∈ tree.blocks) : (path.map env.getBlockHash).Nodup := by
  refine List.Nodup.map_on ?_ (linked.nodup tree.distinct tree.notNull known)
  intro left leftMember right rightMember same
  exact tree.distinct (known left leftMember) (known right rightMember) same

end Tree

/-- The record of an alternative block that has the given ancestors, newest
first. -/
structure AlternativeRecord (env : Env) (rule : WorkRule)
    (received : List Block) (bei : BlockExtendedInfo) (path : List Block) : Prop where
  linked : Linked env.getBlockHash Block.prevId nullHash (bei.bl :: path)
  received : ∀ block ∈ bei.bl :: path, block ∈ received
  attached : path ≠ []
  height : bei.height = path.length
  difficultyPos : rule.difficultyAfter (rule.pathWork path) ≠ 0
  work : bei.cumulativeDifficulty = rule.workAfter (rule.pathWork path)

theorem AlternativeRecord.weaken {env : Env} {rule : WorkRule} {received more : List Block}
    (record : AlternativeRecord env rule received bei path) (subset : received ⊆ more) :
    AlternativeRecord env rule more bei path :=
  { record with
    received := fun block mem => subset (record.received block mem) }

theorem BlockchainDB.blockExists_iff {db : BlockchainDB} {env : Env} :
    db.blockExists env id = true ↔ ∃ entry ∈ db.blocks, env.getBlockHash entry.bl = id := by
  simp [blockExists, blockHashes]

namespace Blockchain

def tipWork (chain : Blockchain) : Nat :=
  chain.db.cumulativeDifficultyAt (chain.db.height - 1)

theorem tipWork_eq_lastWork (chain : Blockchain) :
    chain.tipWork = WorkRule.lastWork (chain.db.blocks.map work) := by
  unfold tipWork cumulativeDifficultyAt height WorkRule.lastWork
  rw [getD_eq_getElem?_getD, getElem?_map, ← getLast?_eq_getElem?, getLast?_map, Option.map_map]
  rfl

theorem lookup_storeAlternative {chain : Blockchain} {added : Hash} {found : BlockExtendedInfo}
    (lookup : (chain.storeAlternative added bei).db.altBlocks.lookup id = some found) :
    id = added ∧ found = bei ∨ chain.db.altBlocks.lookup id = some found := by
  rcases AList.lookup_insert_eq_some_iff.mp lookup with
    ⟨same, stored⟩ | ⟨_, before⟩
  · exact .inl ⟨same, stored.symm⟩
  · exact .inr before

theorem stored_storeAlternative {env : Env} {chain : Blockchain}
    (stored : ∀ other ∈ branch, chain.db.altBlocks.lookup (env.getBlockHash other.bl) = some other)
    (isNew : chain.db.altBlocks.lookup (env.getBlockHash bei.bl) = none) :
    ∀ other ∈ branch ++ [bei], (chain.storeAlternative (env.getBlockHash bei.bl)
        bei).db.altBlocks.lookup (env.getBlockHash other.bl) = some other := by
  intro other mem
  rcases mem_append.mp mem with before | last
  · refine (AList.lookup_insert_ne ?_).trans (stored other before)
    intro same
    rw [← same, stored other before] at isNew
    simp at isNew
  · rw [mem_singleton.mp last]
    exact AList.lookup_insert _

/-- The stored blocks are the received ones, each once, with the records their
paths call for. -/
structure TreeState {env : Env} (tree : BlockTree env) (rule : WorkRule)
    (received : List Block) (chain : Blockchain) : Prop where
  mined : MinedChain env .any chain
  synced : SyncedChain rule chain
  checkpoints : chain.checkpoints = []
  invalidBlocks : chain.invalidBlocks = []
  inTree : ∀ block ∈ received, block ∈ tree.blocks
  main : ∀ entry ∈ chain.db.blocks, entry.bl ∈ received
  named : ∀ id bei, chain.db.altBlocks.lookup id = some bei → env.getBlockHash bei.bl = id
  apart : ∀ id bei, chain.db.altBlocks.lookup id = some bei → chain.db.blockExists env id = false
  recorded : ∀ id bei, chain.db.altBlocks.lookup id = some bei →
    ∃ path, AlternativeRecord env rule received bei path
  stored : ∀ block ∈ received, chain.db.blockExists env (env.getBlockHash block) = true ∨
      (chain.db.altBlocks.lookup (env.getBlockHash block)).isSome = true

variable {env : Env} {tree : BlockTree env} {rule : WorkRule}
  {received : List Block} {chain : Blockchain} {block : Block}

section

variable (state : TreeState tree rule received chain)

include state

theorem TreeState.absent_of_main (onMain : chain.db.blockExists env id = true) :
    chain.db.altBlocks.lookup id = none := by
  rcases found : chain.db.altBlocks.lookup id with _ | bei
  · rfl
  · rw [state.apart id bei found] at onMain
    simp at onMain

theorem TreeState.main_linked :
    Linked env.getBlockHash Block.prevId nullHash (chain.db.blocks.map bl).reverse ∧
      ∀ other ∈ (chain.db.blocks.map bl).reverse, other ∈ received := by
  refine ⟨linked_of_sound state.mined.entries, ?_⟩
  intro other mem
  obtain ⟨entry, lt, rfl⟩ := mem_map.mp (mem_reverse.mp mem)
  exact state.main entry lt

theorem TreeState.main_take (count : Nat) :
    ∀ other ∈ ((chain.db.blocks.take count).map bl).reverse, other ∈ received := by
  intro other mem
  obtain ⟨entry, lt, rfl⟩ := mem_map.mp (mem_reverse.mp mem)
  exact state.main entry (mem_of_mem_take lt)

theorem TreeState.tipWork_eq : chain.tipWork = WorkRule.lastWork
      (rule.pathWork (chain.db.blocks.map bl).reverse) := by
  rw [tipWork_eq_lastWork, map_work_eq_pathWork state.synced.worked]

theorem TreeState.lastWork_take_le (fits : tree.Fits rule) (count : Nat) :
    WorkRule.lastWork (rule.pathWork ((chain.db.blocks.take count).map bl).reverse) ≤
        chain.tipWork := by
  have split : (chain.db.blocks.map bl).reverse =
      ((chain.db.blocks.drop count).map bl).reverse ++
        ((chain.db.blocks.take count).map bl).reverse := by
    rw [← reverse_append, ← map_append, take_append_drop]
  obtain ⟨linked, known⟩ := state.main_linked
  rw [state.tipWork_eq]
  rw [split] at linked known ⊢
  exact fits.lastWork_le linked (fun other mem => state.inTree other (known other mem))

theorem TreeState.onBranch (linked : Linked env.getBlockHash Block.prevId nullHash (block :: path))
    (known : ∀ other ∈ path, other ∈ received) (attached : path ≠ []) :
    ∃ branch fork, OnBranch env rule chain block branch fork ∧ chain.branchPath branch fork = path ∧
      ∀ other ∈ branch, chain.db.altBlocks.lookup (env.getBlockHash other.bl) = some other := by
  induction path generalizing block with
  | nil => exact absurd rfl attached
  | cons parent rest ih =>
    have named : block.prevId = env.getBlockHash parent := linked.1
    have parentKnown := known parent mem_cons_self
    by_cases onMain : chain.db.blockExists env block.prevId = true
    · have onBranch := OnBranch.of_main state.synced state.mined.entries
        (state.absent_of_main onMain) onMain
      refine ⟨[], _, onBranch, ?_, by simp⟩
      exact tree.path_unique onBranch.linked (fun other mem => state.inTree other
          (state.main_take _ other mem)) linked
        (fun other mem => state.inTree other (known other mem))
    · have found := (state.stored parent parentKnown).resolve_left (named ▸ onMain)
      obtain ⟨bei, lookup⟩ := Option.isSome_iff_exists.mp found
      have same : bei.bl = parent := by
        obtain ⟨below, record⟩ := state.recorded _ bei lookup
        exact tree.distinct (state.inTree _ (record.received _ mem_cons_self))
          (state.inTree _ parentKnown) (state.named _ bei lookup)
      subst same
      obtain ⟨below, record⟩ := state.recorded _ bei lookup
      have restKnown : ∀ other ∈ rest, other ∈ received :=
        fun other mem => known other (mem_cons_of_mem _ mem)
      have ancestors : below = rest := tree.path_unique record.linked
        (fun other mem => state.inTree other (record.received other (mem_cons_of_mem _ mem)))
        linked.tail
        (fun other mem => state.inTree other (restKnown other mem))
      subst ancestors
      obtain ⟨branch, fork, onBranch, path, stored⟩ := ih linked.tail restKnown record.attached
      refine ⟨branch ++ [bei], fork, ?_, ?_, ?_⟩
      · refine onBranch.extend named ?_ ?_ ?_
        · rw [record.height, ← path, onBranch.length_branchPath]
        · rw [record.work, path]
        · simpa [or_imp, forall_and] using ⟨stored, lookup⟩
      · rw [branchPath_append_singleton, path]
      · simpa [or_imp, forall_and] using ⟨stored, lookup⟩

end

section Steps

variable {after : Blockchain} (state : TreeState tree rule received chain)
  (run : NodeRun env chain after)

include state run

theorem TreeState.of_sameLedger (ledger : after.SameLedger chain)
    (invalidBlocks : after.invalidBlocks = chain.invalidBlocks) :
    TreeState tree rule received after := by
  have mined := run.preserves (fun step => step.minedChain) state.mined
  have synced := run.preserves (fun step => step.syncedChain) state.synced
  obtain ⟨-, -, checkpoints, noInvalid, inTree, main, named, apart, recorded, stored⟩ := state
  rw [← ledger.db] at main named apart recorded stored
  exact ⟨mined, synced, ledger.checkpoints.trans checkpoints,
    invalidBlocks.trans noInvalid, inTree, main, named, apart, recorded, stored⟩

theorem TreeState.append {now : Nat} {entries : List PoolEntry}
    {entry : BlockEntry} (inTree : block ∈ tree.blocks)
    (isNew : chain.db.altBlocks.lookup (env.getBlockHash block) = none)
    (accepted : AcceptedBlock env now chain block entries entry after) :
    TreeState tree rule (block :: received) after := by
  have altBlocks : after.db.altBlocks = chain.db.altBlocks := by
    rw [accepted.db]
    rfl
  have onMain : ∀ id, after.db.blockExists env id = true ↔
      chain.db.blockExists env id = true ∨ id = env.getBlockHash block := by
    intro id
    rw [blockExists_iff, blockExists_iff, accepted.blocks]
    simp [or_and_right, exists_or, accepted.bl, eq_comm]
  refine ⟨run.preserves (fun step => step.minedChain) state.mined,
    run.preserves (fun step => step.syncedChain) state.synced,
    accepted.config.checkpoints.trans state.checkpoints,
    accepted.invalidBlocks.trans state.invalidBlocks,
    forall_mem_cons.mpr ⟨inTree, state.inTree⟩, ?_, ?_, ?_, ?_, ?_⟩
  · intro other mem
    rw [accepted.blocks, mem_append, mem_singleton] at mem
    rcases mem with mem | rfl
    · exact mem_cons_of_mem _ (state.main other mem)
    · rw [accepted.bl]
      exact mem_cons_self
  · rw [altBlocks]
    exact state.named
  · intro id bei found
    rw [altBlocks] at found
    rw [Bool.eq_false_iff, Ne, onMain]
    rintro (before | rfl)
    · rw [state.apart id bei found] at before
      simp at before
    · rw [isNew] at found
      simp at found
  · intro id bei found
    rw [altBlocks] at found
    obtain ⟨path, record⟩ := state.recorded id bei found
    exact ⟨path, record.weaken (subset_cons_self _ _)⟩
  · intro other mem
    rw [altBlocks, onMain]
    rcases mem_cons.mp mem with rfl | before
    · exact .inl (.inr rfl)
    · exact (state.stored other before).imp_left .inl

omit run in
theorem TreeState.store (run : NodeRun env chain
      (chain.storeAlternative (env.getBlockHash bei.bl) bei)) (inTree : bei.bl ∈ tree.blocks)
    (offMain : chain.db.blockExists env (env.getBlockHash bei.bl) = false)
    (record : AlternativeRecord env rule (bei.bl :: received) bei path) :
    TreeState tree rule (bei.bl :: received)
      (chain.storeAlternative (env.getBlockHash bei.bl) bei) := by
  refine ⟨run.preserves (fun step => step.minedChain) state.mined,
    run.preserves (fun step => step.syncedChain) state.synced,
    state.checkpoints, state.invalidBlocks,
    forall_mem_cons.mpr ⟨inTree, state.inTree⟩, ?_, ?_, ?_, ?_, ?_⟩
  · intro entry mem
    exact mem_cons_of_mem _ (state.main entry mem)
  · intro id found lookup
    rcases lookup_storeAlternative lookup with ⟨rfl, rfl⟩ | before
    · rfl
    · exact state.named id found before
  · intro id found lookup
    rcases lookup_storeAlternative lookup with ⟨rfl, rfl⟩ | before
    · exact offMain
    · exact state.apart id found before
  · intro id found lookup
    rcases lookup_storeAlternative lookup with ⟨rfl, rfl⟩ | before
    · exact ⟨path, record⟩
    · obtain ⟨below, kept⟩ := state.recorded id found before
      exact ⟨below, kept.weaken (subset_cons_self _ _)⟩
  · intro other mem
    by_cases named : env.getBlockHash other = env.getBlockHash bei.bl
    · right
      rw [named, storeAlternative, AList.lookup_insert]
      rfl
    · rw [storeAlternative, AList.lookup_insert_ne named]
      rcases mem_cons.mp mem with rfl | before
      · exact absurd rfl named
      · exact state.stored other before

end Steps

structure HeaviestTip {env : Env} (tree : BlockTree env) (rule : WorkRule)
    (received : List Block) (chain : Blockchain) : Prop
    extends TreeState tree rule received chain where
  heaviest : ∀ id bei, chain.db.altBlocks.lookup id = some bei →
    bei.cumulativeDifficulty ≤ chain.tipWork

theorem HeaviestTip.leaves (tip : HeaviestTip tree rule received chain)
    (fits : tree.Fits rule) {fork : Nat}
    (onBranch : OnBranch env rule chain block branch fork) (stored : ∀ other ∈ branch,
      chain.db.altBlocks.lookup (env.getBlockHash other.bl) = some other) :
    branch = [] ∨ fork < chain.db.height := by
  cases branch with
  | nil => exact .inl rfl
  | cons front rest =>
    right
    by_contra onTop
    have whole : fork = chain.db.blocks.length := le_antisymm onBranch.inside (not_lt.mp onTop)
    have found := stored front mem_cons_self
    obtain ⟨path, record⟩ := tip.recorded _ front found
    have linked : Linked env.getBlockHash Block.prevId nullHash
        (front.bl :: (chain.db.blocks.map bl).reverse) := by
      have split : chain.branchPath (front :: rest) fork =
          (rest.map BlockExtendedInfo.bl).reverse ++
            front.bl :: (chain.db.blocks.map bl).reverse := by
        rw [branchPath, whole]
        simp
      have below := onBranch.linked.tail
      rw [split] at below
      exact below.of_append
    have known := tip.main_linked.2
    have pathKnown : ∀ other ∈ front.bl :: path, other ∈ tree.blocks :=
      fun other mem => tip.inTree other (record.received other mem)
    have same := tree.path_unique record.linked
        (fun other mem => pathKnown other (mem_cons_of_mem _ mem))
        linked (fun other mem => tip.inTree other (known other mem))
    have work := fits.lastWork_cons record.linked pathKnown
    rw [WorkRule.pathWork, WorkRule.lastWork_append_singleton, ← record.work] at work
    have bound := tip.heaviest _ front found
    have pos := record.difficultyPos
    rw [tip.tipWork_eq, ← same] at bound
    omega

end Blockchain

end LodeChain

import LodeChain.CheckpointedRuns

/-!
# Seed hashes of alternative blocks

An alternative block is seeded by an ancestor on the main chain or on its branch.
-/

namespace LodeChain

open LinkedPaths Relation List BlockchainDB

def isPowerOf2 (n : Nat) : Bool :=
  n ≠ 0 ∧ n &&& (n - 1) = 0

def getSeedhashEpochLag : Option Nat → Nat
  | some lag => if 64 < lag ∨ !isPowerOf2 lag then 64 else lag
  | none => 64

def getSeedhashEpochBlocks : Option Nat → Nat
  | some blocks => if blocks < 2 ∨ 2048 < blocks ∨ !isPowerOf2 blocks then 2048 else blocks
  | none => 2048

def rxSeedheightWith (lagSetting blocksSetting : Option Nat) (height : Nat) : Nat :=
  let lag := getSeedhashEpochLag lagSetting
  let blocks := getSeedhashEpochBlocks blocksSetting
  if height ≤ blocks + lag then 0 else (height - lag - 1) / blocks * blocks

theorem rxSeedheightWith_default (height : Nat) :
    rxSeedheightWith none none height = rxSeedheight height :=
  rfl

theorem getSeedhashEpochLag_pos (setting : Option Nat) : 0 < getSeedhashEpochLag setting := by
  rcases setting with _ | lag
  · decide
  · rw [getSeedhashEpochLag]
    split_ifs with refused
    · decide
    · rcases eq_zero_or_pos lag with rfl | pos
      · simp [isPowerOf2] at refused
      · exact pos

theorem rxSeedheightWith_cases (lagSetting blocksSetting : Option Nat) (height : Nat) :
    rxSeedheightWith lagSetting blocksSetting height = 0 ∨
      rxSeedheightWith lagSetting blocksSetting height + 1 < height := by
  have lag := getSeedhashEpochLag_pos lagSetting
  have rounded := Nat.div_mul_le_self (height - getSeedhashEpochLag lagSetting - 1)
    (getSeedhashEpochBlocks blocksSetting)
  unfold rxSeedheightWith
  dsimp only
  split_ifs with low
  · exact .inl rfl
  · right
    omega

namespace Blockchain

def alternativeSeedhash (chain : Blockchain) (env : Env) (altChain : List BlockExtendedInfo)
    (seedheight : Nat) : Hash :=
  if altChain.head?.any fun front => front.height ≤ seedheight then
    match altChain.find? fun bei => bei.height == seedheight + 1 with
    | some bei => bei.bl.prevId
    | none => nullHash
  else chain.db.getBlockIdByHeight env seedheight

theorem alternativeProofOfWork_eq (chain : Blockchain) (env : Env)
    (altChain : List BlockExtendedInfo) {block : Block} (height : Nat)
    (seeded : rxBlockVersion ≤ block.majorVersion) :
    chain.alternativeProofOfWork env altChain block height =
      env.rxSlowHash (chain.alternativeSeedhash env altChain (rxSeedheight height)) block := by
  rw [alternativeProofOfWork, if_pos seeded]
  rfl

/-- The first `fork` blocks of the main chain and a branch with the right heights. -/
structure PlacedBranch (env : Env) (traffic : Traffic) (chain : Blockchain) (block : Block)
    (branch : List BlockExtendedInfo) (fork : Nat) : Prop where
  inside : fork ≤ chain.db.height
  root : chain.db.getBlockHeight env (branchRoot branch block) + 1 = fork
  linked : Linked env.getBlockHash Block.prevId nullHash (block :: chain.branchPath branch fork)
  heights : ∀ index bei, branch[index]? = some bei → bei.height = fork + index
  placed : ∀ parent, (chain.branchPath branch fork).head? = some parent →
    traffic.block parent ∧ getBlockHeight parent + 1 = fork + branch.length

variable {env : Env} {traffic : Traffic} {points : List (Nat × Hash)}
  {start chain after : Blockchain} {block : Block} {altChain branch : List BlockExtendedInfo}
  {fork seedheight : Nat} {timestamps : List Nat}

theorem CheckedChain.placedBranch_main (checked : CheckedChain env traffic points chain)
    (stored : chain.db.blockExists env block.prevId = true) :
    PlacedBranch env traffic chain block [] (chain.db.getBlockHeight env block.prevId + 1) where
  inside := chain.db.getBlockHeight_lt stored
  root := rfl
  linked := by
    refine ⟨?_, linked_of_sound (checked.entries.take _)⟩
    have last := lastBlockHash_getBlockHeight stored
    rw [lastBlockHash_eq_tipId] at last
    exact last.symm
  heights := by simp
  placed := by
    intro parent first
    obtain ⟨entry, found, -⟩ := chain.db.exists_of_blockExists stored
    simp only [branchPath, map_nil, reverse_nil, nil_append, head?_reverse,
      getLast?_map, getLast?_take, Nat.succ_ne_zero, if_false, Nat.add_sub_cancel,
      found, Option.some_or, Option.map_some, Option.some.injEq] at first
    rw [← first, checked.height_of_getElem? found]
    exact ⟨checked.blocks entry (mem_of_getElem? found), rfl⟩

theorem PlacedBranch.head?_branchPath (below : PlacedBranch env traffic chain block branch fork) :
    ∃ parent, (chain.branchPath branch fork).head? = some parent ∧
      block.prevId = env.getBlockHash parent := by
  have lt : fork ≤ chain.db.blocks.length := below.inside
  have root := below.root
  have linked := below.linked.1
  cases path : chain.branchPath branch fork with
  | nil =>
    have length := congrArg List.length path
    simp only [branchPath, length_append, length_reverse, length_map,
      List.length_take, length_nil] at length
    omega
  | cons parent rest =>
    rw [path] at linked
    exact ⟨parent, rfl, linked⟩

theorem CheckedChain.placedBranch_altWalk (checked : CheckedChain env traffic points chain)
    (fuel : Nat) (stored : chain.db.blockExists env
      (branchRoot (altWalk chain.db.altBlocks fuel block.prevId []) block) = true) :
    ∃ fork, PlacedBranch env traffic chain block
      (altWalk chain.db.altBlocks fuel block.prevId []) fork := by
  induction fuel generalizing block with
  | zero => exact ⟨_, checked.placedBranch_main stored⟩
  | succ fuel ih =>
    rw [altWalk] at stored ⊢
    rcases found : chain.db.altBlocks.lookup block.prevId with _ | bei
    · rw [found] at stored
      exact ⟨_, checked.placedBranch_main stored⟩
    · rw [found] at stored
      dsimp only at stored ⊢
      rw [altWalk_eq_append] at stored ⊢
      rw [branchRoot_append_singleton] at stored
      obtain ⟨fork, below⟩ := ih stored
      generalize altWalk chain.db.altBlocks fuel bei.bl.prevId [] = branch at below
      have record := checked.alternatives _ bei found
      obtain ⟨parent, first, named⟩ := below.head?_branchPath
      obtain ⟨permitted, place⟩ := below.placed parent first
      have height : bei.height = fork + branch.length :=
        (record.parent parent permitted named.symm).symm.trans place
      refine ⟨fork, below.inside, ?_, ?_, ?_, ?_⟩
      · rw [branchRoot_append_singleton]
        exact below.root
      · rw [branchPath_append_singleton]
        exact ⟨record.named.symm, below.linked⟩
      · intro index other listed
        rcases lt_or_ge index branch.length with lower | top
        · rw [getElem?_append_left lower] at listed
          exact below.heights index other listed
        · rw [getElem?_append_right top, getElem?_singleton] at listed
          split_ifs at listed with last
          cases listed
          omega
      · intro other first
        rw [branchPath_append_singleton, head?_cons, Option.some.injEq] at first
        rw [← first, record.height, height, length_append]
        exact ⟨record.permitted, rfl⟩

theorem PlacedBranch.alternativeParent_height
    (below : PlacedBranch env traffic chain block branch fork) :
    (chain.alternativeParent env block.prevId branch).height + 1 = fork + branch.length := by
  unfold alternativeParent
  rcases last : branch.getLast? with _ | bei
  · rw [getLast?_eq_none_iff] at last
    have root := below.root
    rw [last] at root ⊢
    exact root
  · have some_ : 0 < branch.length := by
      rw [length_pos_iff]
      rintro rfl
      cases last
    rw [getLast?_eq_getElem?] at last
    have height := below.heights _ bei last
    dsimp only
    omega

theorem PlacedBranch.seedhash (below : PlacedBranch env traffic chain block branch fork)
    (links : branch.IsChain fun lower upper => upper.bl.prevId = env.getBlockHash lower.bl)
    (early : seedheight = 0 ∨ seedheight + 1 < fork + branch.length) :
    ∃ ancestor, (chain.branchPath branch fork).reverse[seedheight]? = some ancestor ∧
      chain.alternativeSeedhash env branch seedheight = env.getBlockHash ancestor := by
  have lt : fork ≤ chain.db.blocks.length := below.inside
  have root := below.root
  have path : (chain.branchPath branch fork).reverse =
      (chain.db.blocks.take fork).map BlockEntry.bl ++ branch.map BlockExtendedInfo.bl := by
    simp [branchPath]
  rw [path]
  rcases lt_or_ge seedheight fork with onMain | onBranch
  · have stored : seedheight < chain.db.blocks.length := by omega
    have above : branch.head?.any (fun front => front.height ≤ seedheight) = false := by
      rcases first : branch.head? with _ | front
      · rfl
      · rw [head?_eq_getElem?] at first
        have height := below.heights 0 front first
        simp
        omega
    refine ⟨(chain.db.blocks.get ⟨seedheight, stored⟩).bl, ?_, ?_⟩
    · rw [getElem?_append_left (by simp; omega)]
      simp [onMain, stored]
    · rw [alternativeSeedhash, above]
      simp [getBlockIdByHeight, blockHashes, stored]
  · have later : seedheight - fork + 1 < branch.length := by omega
    have heights : ∀ index (lt : index < branch.length),
        (branch.get ⟨index, lt⟩).height = fork + index :=
      fun index lt => below.heights index _ (getElem?_eq_getElem lt)
    have above : branch.head?.any (fun front => front.height ≤ seedheight) = true := by
      rw [head?_eq_getElem?, getElem?_eq_getElem (by omega)]
      have height := heights 0 (by omega)
      simp at height
      simp [height, onBranch]
    have next : branch.find? (fun bei => bei.height == seedheight + 1) =
        some (branch.get ⟨_, later⟩) := by
      rw [find?_eq_some_iff_getElem]
      refine ⟨?_, _, later, rfl, ?_⟩
      · rw [heights]
        simp
        omega
      · intro index prev
        have height := heights index (by omega)
        simp at height
        simp [height]
        omega
    refine ⟨(branch.get ⟨seedheight - fork, by omega⟩).bl, ?_, ?_⟩
    · rw [getElem?_append_right (by simp; omega)]
      simp [min_eq_left lt, Nat.lt_of_succ_lt later]
    · rw [alternativeSeedhash, above, next]
      exact isChain_iff_getElem.mp links _ later

/-- The seed hash of an alternative block is always the hash of its ancestor at the seed height.
-/
theorem Run.alternativeSeedhash_eq
    (distinct : Set.InjOn env.getBlockHash {block | traffic.block block})
    (started : IsInitial start) (run : Run env traffic start chain)
    (built : chain.db.buildAltChain env block.prevId = some (altChain, timestamps))
    (seeded : rxBlockVersion ≤ block.majorVersion) :
    ∃ path, Linked env.getBlockHash Block.prevId nullHash (block :: path) ∧
      path.length = (chain.alternativeParent env block.prevId altChain).height + 1 ∧
      (∀ lagSetting blocksSetting, ∃ ancestor,
        path.reverse[rxSeedheightWith lagSetting blocksSetting path.length]? = some ancestor ∧
        chain.alternativeSeedhash env altChain
          (rxSeedheightWith lagSetting blocksSetting path.length) = env.getBlockHash ancestor) ∧
      ∃ ancestor, path.reverse[rxSeedheight path.length]? = some ancestor ∧
        chain.alternativeProofOfWork env altChain block path.length =
          env.rxSlowHash (env.getBlockHash ancestor) block := by
  have checked := run.checkedChain distinct started.checkedChain
  obtain ⟨walked, rootExists, -⟩ := buildAltChain_eq_some built
  rw [altChainTo] at walked
  obtain ⟨links, -⟩ := altWalk_linked
    (fun id other found => (checked.alternatives id other found).named) _ _
  rw [walked] at rootExists
  obtain ⟨fork, below⟩ := checked.placedBranch_altWalk _ rootExists
  rw [← walked] at below links
  have inside : fork ≤ chain.db.blocks.length := below.inside
  have length : (chain.branchPath altChain fork).length = fork + altChain.length := by
    simp [branchPath, List.length_take]
    omega
  have found : ∀ lagSetting blocksSetting, ∃ ancestor, (chain.branchPath altChain fork).reverse[
        rxSeedheightWith lagSetting blocksSetting (chain.branchPath altChain fork).length]? =
          some ancestor ∧
      chain.alternativeSeedhash env altChain (rxSeedheightWith lagSetting blocksSetting
        (chain.branchPath altChain fork).length) = env.getBlockHash ancestor := by
    intro lagSetting blocksSetting
    rw [length]
    exact below.seedhash links (rxSeedheightWith_cases _ _ _)
  refine ⟨_, below.linked, length.trans below.alternativeParent_height.symm, found, ?_⟩
  obtain ⟨ancestor, placed, hash⟩ := found none none
  rw [rxSeedheightWith_default] at placed hash
  refine ⟨ancestor, placed, ?_⟩
  rw [alternativeProofOfWork_eq _ _ _ _ seeded, hash]

theorem HandedRun.run {blocks : Set Block} (run : HandedRun env blocks chain after)
    (held : HeldBlocks (.ofBlocks blocks) chain) : Run env (.ofBlocks blocks) chain after := by
  induction run with
  | refl => exact .refl
  | tail _ last ih =>
    cases last with
    | addNewBlock nesting now block bvc fresh handed =>
      exact ih.trans (addNewBlock_run (fun _ mem => mem) nesting (ih.heldBlocks held) handed fresh)
    | between _ step ledger => exact ReflTransGen.tail ih step

def branchedNode : Blockchain :=
  handed checkedEnv [rivalBlock 10000000000 [], claimingBlock 1 1 10000000000 [],
    claimingBlock 0 0 0 []]

theorem branchedNode_alternativeSeedhash :
    ∃ (path : List Block) (ancestor : Block), path.length = 2 ∧
      path.reverse[rxSeedheight path.length]? = some ancestor ∧
      branchedNode.alternativeProofOfWork checkedEnv [rivalInfo] rivalChild path.length =
        checkedEnv.rxSlowHash (checkedEnv.getBlockHash ancestor) rivalChild := by
  have started : IsInitial Blockchain.empty := ⟨rfl, rfl, rfl⟩
  have checked : CheckedChain checkedEnv (.ofBlocks forkedTree.blocks) _ Blockchain.empty :=
    started.checkedChain
  have member : ∀ block, block ∈ forkedBlocks → block ∈ forkedTree.blocks := fun _ => id
  have run : HandedRun checkedEnv forkedTree.blocks Blockchain.empty branchedNode :=
    ((ReflTransGen.single (.addNewBlock _ _ _ _ .init rfl (member _ (by decide)))).tail
      (.addNewBlock _ _ _ _ .init rfl (member _ (by decide)))).tail
      (.addNewBlock _ _ _ _ .init rfl (member _ (by decide)))
  obtain ⟨path, -, length, -, ancestor, placed, work⟩ := Run.alternativeSeedhash_eq
    forkedTree.distinct started (run.run checked.heldBlocks)
    (show branchedNode.db.buildAltChain checkedEnv rivalChild.prevId =
      some ([rivalInfo], [121]) by decide)
    (show rxBlockVersion ≤ rivalChild.majorVersion by decide)
  exact ⟨path, ancestor, length.trans (by decide), placed, work⟩

end Blockchain

end LodeChain

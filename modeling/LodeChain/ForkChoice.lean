import LodeChain.ForkTree

/-!
# Fork choice

A node is handed the blocks of a tree, each after its parent, and keeps a heaviest branch as its
main chain: every block it has received is on the main chain or stored as an alternative, and none
is heavier than the tip. Two nodes that have received the same blocks in different orders agree on
the work of their tips.
-/

namespace LodeChain

open WrappedArithmetic LinkedPaths List

namespace Blockchain

variable {env : Env} {tree : BlockTree env} {rule : WorkRule} {now : Nat}
  {received : List Block} {chain : Blockchain} {block : Block}
  {branch : List BlockExtendedInfo} {fork : Nat}

theorem OnBranch.parentKnown (onBranch : OnBranch env rule chain block branch fork) :
    (chain.db.altBlocks.lookup block.prevId).isSome = true ∨
      chain.db.blockExists env block.prevId = true := by
  have stored := onBranch.stored
  cases onBranch.walk with
  | root absent => exact .inr stored
  | step found below =>
    left
    rw [found]
    rfl

theorem OnBranch.resetDifficultyCache (onBranch : OnBranch env rule chain block branch fork) :
    OnBranch env rule chain.resetDifficultyCache block branch fork :=
  ⟨onBranch.walk, onBranch.stored, onBranch.root, onBranch.heights,
    onBranch.short, onBranch.linked, onBranch.worked⟩

theorem SyncedChain.resetDifficultyCache (synced : SyncedChain rule chain) :
    SyncedChain rule chain.resetDifficultyCache :=
  synced.of_sameLedger ⟨⟨rfl, rfl, rfl, rfl⟩, rfl, rfl⟩

variable {nesting : Nat} {bvc : BlockVerificationContext} {bei : BlockExtendedInfo}

theorem handleAlternativeBlock_verdict
    (valid : (handleAlternativeBlock (nesting + 1) chain env now block bvc).rejected = []) :
    let verdict := chain.resetDifficultyCache.checkAlternativeBlock env block
      (env.getBlockHash block)
    verdict = .brokenBranch ∨ verdict = .duplicate ∨ verdict = .orphaned ∨
      ∃ altChain bei, verdict = .accepted altChain bei := by
  rw [handleAlternativeBlock] at valid
  rcases checkEq : chain.resetDifficultyCache.checkAlternativeBlock env block
      (env.getBlockHash block) with _ | _ | _ | _ | _ | _ | ⟨altChain, bei⟩
  case accepted => exact .inr (.inr (.inr ⟨altChain, bei, rfl⟩))
  all_goals
    rw [checkEq] at valid
    simp at valid ⊢

theorem OnBranch.checked (onBranch : OnBranch env rule chain block branch fork)
    (leaves : branch = [] ∨ fork < chain.db.height)
    (isNew : chain.db.altBlocks.lookup (env.getBlockHash block) = none)
    (valid : (handleAlternativeBlock (nesting + 1) chain env now block bvc).rejected = []) :
    ∃ altChain bei, chain.resetDifficultyCache.checkAlternativeBlock env block
      (env.getBlockHash block) = .accepted altChain bei := by
  obtain ⟨broken, duplicate, orphaned⟩ := checkAlternativeBlock_structural
  rcases handleAlternativeBlock_verdict valid with
    verdict | verdict | verdict | accepted
  · exact absurd (broken verdict) (onBranch.buildAltChain_ne_none leaves)
  · have found := duplicate verdict
    have absent : chain.resetDifficultyCache.db.altBlocks.lookup
        (env.getBlockHash block) = none := isNew
    rw [absent] at found
    simp at found
  · obtain ⟨absent, offMain⟩ := orphaned verdict
    rcases onBranch.resetDifficultyCache.parentKnown with found | onMain
    · rw [absent] at found
      simp at found
    · rw [offMain] at onMain
      simp at onMain
  · exact accepted

variable {altChain : List BlockExtendedInfo} {work : Nat}

theorem OnBranch.record (onBranch : OnBranch env rule chain block branch fork)
    (synced : SyncedChain rule chain)
    (known : ∀ other ∈ block :: chain.branchPath branch fork, other ∈ received)
    (accepted : AcceptedAlternative env chain block altChain bei) :
    altChain = branch ∧ AlternativeRecord env rule received bei (chain.branchPath branch fork) := by
  obtain ⟨walked, height, difficultyPos, work⟩ := onBranch.accepted synced accepted
  have length := onBranch.length_branchPath
  have pos := onBranch.attachedAt.positive
  rw [← accepted.bl] at known
  have linked := onBranch.linked
  rw [← accepted.bl] at linked
  refine ⟨walked, linked, known, ?_, height.trans length.symm, difficultyPos, work⟩
  intro empty
  rw [empty, length_nil] at length
  omega

theorem isACheckpoint_eq_false (checkpoints : chain.checkpoints = []) (height : Nat) :
    chain.isACheckpoint height = false := by
  rw [isACheckpoint, checkpoints]
  rfl

theorem handleAlternativeBlock_stored (checkpoints : chain.checkpoints = [])
    (accepted : chain.resetDifficultyCache.checkAlternativeBlock env block
      (env.getBlockHash block) = .accepted altChain bei)
    (light : bei.cumulativeDifficulty ≤ chain.tipWork) :
    handleAlternativeBlock (nesting + 1) chain env now block bvc =
      ⟨chain.resetDifficultyCache.storeAlternative (env.getBlockHash block) bei,
        bvc, .returned true, []⟩ := by
  have notCheckpoint := @isACheckpoint_eq_false chain.resetDifficultyCache checkpoints bei.height
  rw [handleAlternativeBlock]
  rw [accepted]
  dsimp only
  rw [notCheckpoint, if_neg]
  rintro (checkpoint | heavy)
  · simp at checkpoint
  · exact absurd light (not_le.mpr heavy)

theorem handleAlternativeBlock_switched {nesting : Nat} {bvc : BlockVerificationContext}
    {bei : BlockExtendedInfo} (checkpoints : chain.checkpoints = [])
    (accepted : chain.resetDifficultyCache.checkAlternativeBlock env block
      (env.getBlockHash block) = .accepted altChain bei)
    (heavy : chain.tipWork < bei.cumulativeDifficulty) :
    let switched := switchToAlternativeBlockchain
      (fun current displaced => handleAlternativeBlock nesting current env now
        displaced BlockVerificationContext.init)
      (chain.resetDifficultyCache.storeAlternative (env.getBlockHash block) bei)
      env now (altChain ++ [bei]) false
    (handleAlternativeBlock (nesting + 1) chain env now block bvc).chain = switched.1 ∧
      (handleAlternativeBlock (nesting + 1) chain env now block bvc).rejected = switched.2.2 := by
  have notCheckpoint := @isACheckpoint_eq_false chain.resetDifficultyCache checkpoints bei.height
  rw [handleAlternativeBlock]
  rw [accepted]
  dsimp only
  rw [if_pos (.inr heavy), notCheckpoint]
  split
  all_goals exact ⟨rfl, rfl⟩

theorem OnBranch.storeAlternative (onBranch : OnBranch env rule chain block branch fork) {id : Hash}
    (isNew : chain.db.altBlocks.lookup id = none)
    (apart : chain.db.blockExists env id = false) {bei : BlockExtendedInfo}
    (stored : ∀ other ∈ branch, (chain.storeAlternative id bei).db.altBlocks.lookup
      (env.getBlockHash other.bl) = some other) :
    OnBranch env rule (chain.storeAlternative id bei) block branch fork := by
  refine ⟨onBranch.walk.insert isNew ?_ bei, onBranch.stored, onBranch.root,
    onBranch.heights, length_le_keys_of_stored onBranch.heights stored,
    onBranch.linked, onBranch.worked⟩
  have onMain := onBranch.stored
  rintro rfl
  cases branch with
  | nil =>
    rw [show chain.db.blockExists env (branchRoot [] block) = false from apart] at onMain
    simp at onMain
  | cons front rest =>
    rw [show chain.db.blockExists env (branchRoot (front :: rest) block) =
      false from apart] at onMain
    simp at onMain

/-- Each displaced block is an alternative one with the record of its path and no more than the
given work; nothing else has changed. -/
structure DisplacedStored (env : Env) (rule : WorkRule) (received : List Block)
    (work : Nat) (displaced : List Block) (current final : Blockchain) : Prop where
  blocks : final.db.blocks = current.db.blocks
  config : final.SameConfig current
  invalidBlocks : final.invalidBlocks = current.invalidBlocks
  kept : ∀ id bei, current.db.altBlocks.lookup id = some bei →
    final.db.altBlocks.lookup id = some bei
  stored : ∀ block ∈ displaced, (final.db.altBlocks.lookup (env.getBlockHash block)).isSome = true
  found : ∀ id bei, final.db.altBlocks.lookup id = some bei →
    current.db.altBlocks.lookup id = some bei ∨ bei.bl ∈ displaced ∧ env.getBlockHash bei.bl = id ∧
        bei.cumulativeDifficulty ≤ work ∧ ∃ path, AlternativeRecord env rule received bei path

theorem DisplacedStored.nil (current : Blockchain) :
    DisplacedStored env rule received work [] current current :=
  ⟨rfl, .refl current, rfl, fun _ _ found => found, by simp, fun _ _ found => .inl found⟩

theorem DisplacedStored.cons {current final : Blockchain} {path rest : List Block}
    (isNew : current.db.altBlocks.lookup (env.getBlockHash bei.bl) = none)
    (record : AlternativeRecord env rule received bei path)
    (light : bei.cumulativeDifficulty ≤ work) (others : DisplacedStored env rule received work rest
      (current.resetDifficultyCache.storeAlternative (env.getBlockHash bei.bl) bei) final) :
    DisplacedStored env rule received work (bei.bl :: rest) current final := by
  have first := others.kept _ bei (AList.lookup_insert _)
  refine ⟨others.blocks, others.config.trans ⟨rfl, rfl, rfl, rfl⟩, others.invalidBlocks, ?_, ?_, ?_⟩
  · intro id other found
    refine others.kept id other ?_
    have distinct : id ≠ env.getBlockHash bei.bl := by
      rintro rfl
      rw [isNew] at found
      simp at found
    exact (AList.lookup_insert_ne distinct).trans found
  · rw [forall_mem_cons]
    exact ⟨by rw [first]; rfl, others.stored⟩
  · intro id other found
    rcases others.found id other found with before | ⟨mem, fact⟩
    · by_cases same : id = env.getBlockHash bei.bl
      · subst same
        rw [first, Option.some.injEq] at found
        subst found
        exact .inr ⟨mem_cons_self, rfl, light, path, record⟩
      · exact .inl ((AList.lookup_insert_ne same).symm.trans before)
    · exact .inr ⟨mem_cons_of_mem _ mem, fact⟩

theorem OnBranch.storesLight (onBranch : OnBranch env rule chain block branch fork)
    (synced : SyncedChain rule chain) (checkpoints : chain.checkpoints = [])
    (below : fork < chain.db.height)
    (known : ∀ other ∈ block :: chain.branchPath branch fork, other ∈ received)
    (light : WorkRule.lastWork
      (rule.pathWork (block :: chain.branchPath branch fork)) ≤ chain.tipWork)
    (isNew : chain.db.altBlocks.lookup (env.getBlockHash block) = none)
    (valid : (handleAlternativeBlock (nesting + 1) chain env now block .init).rejected = []) :
    ∃ bei, bei.bl = block ∧ AlternativeRecord env rule received bei (chain.branchPath branch fork) ∧
      bei.cumulativeDifficulty ≤ chain.tipWork ∧
      handleAlternativeBlock (nesting + 1) chain env now block .init =
        ⟨chain.resetDifficultyCache.storeAlternative (env.getBlockHash block)
          bei, .init, .returned true, []⟩ := by
  obtain ⟨altChain, bei, accepted⟩ := onBranch.checked (.inr below) isNew valid
  obtain ⟨-, record⟩ := onBranch.resetDifficultyCache.record
    synced.resetDifficultyCache known (checkAlternativeBlock_accepted accepted)
  have lightRecord : bei.cumulativeDifficulty ≤ chain.tipWork := by
    rw [WorkRule.pathWork, WorkRule.lastWork_append_singleton] at light
    rw [record.work]
    exact light
  exact ⟨bei, (checkAlternativeBlock_accepted accepted).bl, record, lightRecord,
    handleAlternativeBlock_stored checkpoints accepted lightRecord⟩

theorem storeDisconnected_stored {displaced : List Block} (synced : SyncedChain rule chain)
    (checkpoints : chain.checkpoints = []) (below : fork < chain.db.height)
    (onBranch : ∀ next, next.prevId = tipId env.getBlockHash nullHash
        (chain.branchPath branch fork) → OnBranch env rule chain next branch fork)
    (stored : ∀ other ∈ branch, chain.db.altBlocks.lookup (env.getBlockHash other.bl) = some other)
    (linked : Linked env.getBlockHash Block.prevId nullHash
      (displaced.reverse ++ chain.branchPath branch fork))
    (known : ∀ other ∈ displaced.reverse ++ chain.branchPath branch fork, other ∈ received)
    (light : ∀ newer older, displaced.reverse ++ chain.branchPath branch fork = newer ++ older →
        WorkRule.lastWork (rule.pathWork older) ≤ chain.tipWork)
    (distinct : (displaced.map env.getBlockHash).Nodup)
    (isNew : ∀ other ∈ displaced, chain.db.altBlocks.lookup (env.getBlockHash other) = none)
    (apart : ∀ other ∈ displaced, chain.db.blockExists env (env.getBlockHash other) = false)
    (valid : (storeDisconnected (fun current block => handleAlternativeBlock
      (nesting + 1) current env now block .init) displaced chain).2.1 = []) :
    ∃ final, storeDisconnected (fun current block => handleAlternativeBlock
        (nesting + 1) current env now block .init) displaced chain = (final, [], true) ∧
      DisplacedStored env rule received chain.tipWork displaced chain final := by
  induction displaced generalizing chain branch with
  | nil => exact ⟨chain, rfl, .nil chain⟩
  | cons first rest ih =>
    rw [reverse_cons, append_assoc] at linked known light
    rw [map_cons, nodup_cons] at distinct
    rw [forall_mem_cons] at isNew apart
    have pathLinked := linked.of_append
    have pathKnown : ∀ other ∈ first :: chain.branchPath branch fork, other ∈ received :=
      fun other mem => known other (mem_append_right _ mem)
    have firstOn := onBranch first pathLinked.1
    have firstValid : (handleAlternativeBlock (nesting + 1) chain env now
        first .init).rejected = [] := by
      rw [storeDisconnected] at valid
      split at valid
      · exact valid
      · exact (append_eq_nil_iff.mp valid).1
    obtain ⟨bei, rfl, record, firstLight, handled⟩ := firstOn.storesLight
      synced checkpoints below pathKnown (light _ _ rfl) isNew.1
      firstValid
    have laterStored := stored_storeAlternative stored isNew.1
    have laterOn := @OnBranch.storeAlternative env rule
      _ bei.bl branch fork
      firstOn.resetDifficultyCache _ isNew.1 apart.1 bei
      (fun other mem => laterStored other (mem_append_left _ mem))
    have laterPath : (chain.resetDifficultyCache.storeAlternative
        (env.getBlockHash bei.bl) bei).branchPath (branch ++ [bei]) fork =
          bei.bl :: chain.branchPath branch fork :=
      branchPath_append_singleton _ _ _ _
    have laterNew : ∀ other ∈ rest,
        (chain.resetDifficultyCache.storeAlternative (env.getBlockHash bei.bl)
          bei).db.altBlocks.lookup (env.getBlockHash other) = none := by
      intro other mem
      refine (AList.lookup_insert_ne ?_).trans (isNew.2 other mem)
      intro same
      exact distinct.1 (same ▸ mem_map_of_mem mem)
    rw [storeDisconnected] at valid ⊢
    rw [handled] at valid ⊢
    obtain ⟨final, finished, others⟩ := @ih (chain.resetDifficultyCache.storeAlternative _ bei) _
      ⟨synced.hardfork, synced.table, synced.fixedDifficulty, synced.worked⟩
      checkpoints below
      (fun next parent => laterOn.extend (by rw [parent, laterPath]; rfl)
        (by rw [record.height]; exact firstOn.length_branchPath)
        record.work laterStored)
      laterStored (by rw [laterPath]; exact linked)
      (by rw [laterPath]; exact known) (by rw [laterPath]; exact light)
      distinct.2 laterNew apart.2 valid
    refine ⟨final, ?_, .cons isNew.1 record firstLight others⟩
    rw [finished]
    rfl

/-! ## Attaching a heavier branch -/

open BlockchainDB BlockEntry

theorem TreeState.mainIds_nodup (state : TreeState tree rule received chain) :
    (chain.db.blockHashes env).Nodup := by
  obtain ⟨linked, known⟩ := state.main_linked
  have nodup := tree.ids_nodup linked (fun other mem => state.inTree other (known other mem))
  rwa [map_reverse, nodup_reverse, map_map] at nodup

variable {disconnected : List Block} {branchIds : List Hash} {splitHeight : Nat} {id : Hash}
  {entry : BlockEntry}

section Switch

variable {handleAlternative : Blockchain → Block → ChainResult}

theorem switchToAlternativeBlockchain_attached {front : BlockExtendedInfo}
    {rest : List BlockExtendedInfo} {discardDisconnected : Bool}
    {remaining : Blockchain} (onMain : chain.db.blockExists env front.bl.prevId = true)
    (popped : chain.resetDifficultyCache.popToBlock env now front.bl.prevId =
      (some disconnected, remaining))
    (valid : (switchToAlternativeBlockchain handleAlternative chain env now
      (front :: rest) discardDisconnected).2.2 = []) :
    let branch := (front :: rest).map BlockExtendedInfo.bl
    let done := attachAll env now branch remaining.updateNextCumulativeWeightLimit
    done.2.1 = [] ∧ switchToAlternativeBlockchain handleAlternative chain env now
          (front :: rest) discardDisconnected =
        done.1.finishSwitch handleAlternative (branch.map env.getBlockHash)
          disconnected remaining.db.height discardDisconnected := by
  have attaches : chain.resetDifficultyCache.db.blockExists env front.bl.prevId = true := onMain
  unfold switchToAlternativeBlockchain at valid ⊢
  dsimp only at valid ⊢
  rw [if_neg (by simp [attaches]), popped] at valid ⊢
  dsimp only at valid ⊢
  rcases attachEq : attachAll env now ((front :: rest).map BlockExtendedInfo.bl)
      remaining.updateNextCumulativeWeightLimit with ⟨attached, left, threw⟩
  rw [attachEq] at valid
  cases left with
  | nil => exact ⟨rfl, rfl⟩
  | cons failed others =>
    cases threw with
    | true => simp at valid
    | false =>
      dsimp only at valid
      split at valid
      all_goals simp at valid

theorem finishSwitch_rejected :
    (chain.finishSwitch handleAlternative branchIds disconnected splitHeight false).2.2 =
      (storeDisconnected handleAlternative disconnected chain).2.1 := by
  unfold finishSwitch pushDisconnected
  rw [if_neg (by simp)]
  dsimp only
  split
  · rfl
  · split
    all_goals rfl

theorem finishSwitch_done {pushed : Blockchain}
    (stored : storeDisconnected handleAlternative disconnected chain = (pushed, [], true))
    (distinct : branchIds.Nodup)
    (present : ∀ id ∈ branchIds, (pushed.db.altBlocks.lookup id).isSome = true) :
    ∃ altBlocks, chain.finishSwitch handleAlternative branchIds disconnected splitHeight false =
          (({ pushed with db := { pushed.db with altBlocks := altBlocks } } :
            Blockchain).reorganizeHardFork splitHeight, .returned true, []) ∧
      ∀ id, altBlocks.lookup id =
        if id ∈ branchIds then none else pushed.db.altBlocks.lookup id := by
  obtain ⟨altBlocks, removed, lookups⟩ := removeAltBlocks_stored distinct present
  refine ⟨altBlocks, ?_, lookups⟩
  simp [finishSwitch, pushDisconnected, stored, removed]

end Switch

/-- A branch with more work than the top block, when no other alternative block has. -/
structure HeavierBranch (env : Env) (rule : WorkRule) (chain : Blockchain)
    (front : BlockExtendedInfo) (rest : List BlockExtendedInfo) (fork : Nat) : Prop where
  onMain : chain.db.blockExists env front.bl.prevId = true
  root : chain.db.getBlockHeight env front.bl.prevId + 1 = fork
  linked : Linked env.getBlockHash Block.prevId nullHash (chain.branchPath (front :: rest) fork)
  stored : ∀ other ∈ front :: rest,
    chain.db.altBlocks.lookup (env.getBlockHash other.bl) = some other
  heavier : chain.tipWork < WorkRule.lastWork
    (rule.pathWork (chain.branchPath (front :: rest) fork))
  others : ∀ id bei, chain.db.altBlocks.lookup id = some bei →
    bei ∈ front :: rest ∨ bei.cumulativeDifficulty ≤ chain.tipWork

/-- The chain after the branch is attached in place of the blocks above the
fork. -/
structure BranchAttached (env : Env) (chain : Blockchain)
    (branch : List BlockExtendedInfo) (fork : Nat) (entries : List BlockEntry)
    (attached : Blockchain) : Prop where
  run : NodeRun env chain attached
  blocks : attached.db.blocks = chain.db.blocks.take fork ++ entries
  branch : entries.map bl = branch.map BlockExtendedInfo.bl
  altBlocks : attached.db.altBlocks = chain.db.altBlocks
  config : attached.SameConfig chain
  invalidBlocks : attached.invalidBlocks = chain.invalidBlocks

section Heavier

variable {front : BlockExtendedInfo} {rest : List BlockExtendedInfo} {entries : List BlockEntry}
  {attached : Blockchain}

theorem TreeState.attach (state : TreeState tree rule received chain)
    (heavier : HeavierBranch env rule chain front rest fork)
    {handleAlternative : Blockchain → Block → ChainResult}
    (valid : (switchToAlternativeBlockchain handleAlternative chain env now
      (front :: rest) false).2.2 = []) :
    ∃ entries attached, BranchAttached env chain (front :: rest) fork entries attached ∧
      switchToAlternativeBlockchain handleAlternative chain env now (front :: rest) false =
        attached.finishSwitch handleAlternative
          (((front :: rest).map BlockExtendedInfo.bl).map env.getBlockHash)
          ((chain.db.blocks.drop fork).map bl) fork false := by
  obtain ⟨remaining, popEq, popped, remainingBlocks⟩ :=
    @popToBlock_eq env now chain state.mined.weighed state.mainIds_nodup _ heavier.onMain fork
      heavier.root
  have lt := getBlockHeight_lt heavier.onMain
  have root := heavier.root
  have height : remaining.db.height = fork := by
    rw [height, remainingBlocks, List.length_take]
    rw [height] at lt
    omega
  obtain ⟨complete, switched⟩ := switchToAlternativeBlockchain_attached heavier.onMain popEq valid
  obtain ⟨entries, split, appended, altBlocks, config, invalidBlocks⟩ :=
    attachAll_cases ((front :: rest).map BlockExtendedInfo.bl)
      remaining.updateNextCumulativeWeightLimit
  have popRun := @popToBlock_run env now .any chain front.bl.prevId
  rw [popEq] at popRun
  have run := (popRun.trans (updateNextCumulativeWeightLimit_run _)).trans
    (@attachAll_run env now .any ((front :: rest).map BlockExtendedInfo.bl) (fun _ _ => trivial) _)
  have limited : remaining.updateNextCumulativeWeightLimit.SameConfig
      remaining := ⟨rfl, rfl, rfl, rfl⟩
  rw [complete, append_nil] at split
  refine ⟨entries, _, ⟨run, ?_, split.symm, altBlocks.trans popped.altBlocks,
    config.trans (limited.trans popped.config),
    (invalidBlocks complete).trans popped.invalidBlocks⟩, ?_⟩
  · exact appended.trans (congrArg (· ++ entries) remainingBlocks)
  · rw [switched, height]

section

variable (done : BranchAttached env chain (front :: rest) fork entries attached)

include done

theorem BranchAttached.path :
    (attached.db.blocks.map bl).reverse = chain.branchPath (front :: rest) fork := by
  rw [done.blocks, map_append, done.branch, reverse_append]
  rfl

theorem BranchAttached.blockExists_iff :
    attached.db.blockExists env id = true ↔ id ∈ (chain.db.blocks.take fork).map
          (fun entry => env.getBlockHash entry.bl) ∨
        id ∈ ((front :: rest).map BlockExtendedInfo.bl).map env.getBlockHash := by
  rw [← done.branch, map_map, blockExists,
    blockHashes, done.blocks, map_append,
    contains_iff_mem, mem_append]
  rfl

theorem BranchAttached.tipWork_eq (synced : SyncedChain rule chain) :
    attached.tipWork = WorkRule.lastWork
      (rule.pathWork (chain.branchPath (front :: rest) fork)) := by
  have syncedAttached := done.run.preserves (fun step => step.syncedChain) synced
  rw [tipWork_eq_lastWork, map_work_eq_pathWork syncedAttached.worked, done.path]

end

theorem TreeState.take_apart (state : TreeState tree rule received chain)
    (above : entry ∈ chain.db.blocks.drop fork) :
    env.getBlockHash entry.bl ∉ (chain.db.blocks.take fork).map
      (fun entry => env.getBlockHash entry.bl) := by
  have nodup := state.mainIds_nodup
  rw [blockHashes, ← take_append_drop fork chain.db.blocks, map_append] at nodup
  intro below
  exact disjoint_of_nodup_append nodup below (mem_map_of_mem above)

section

variable (heavier : HeavierBranch env rule chain front rest fork)

include heavier

theorem HeavierBranch.length_take : (chain.db.blocks.take fork).length = fork := by
  have lt : chain.db.getBlockHeight env front.bl.prevId <
      chain.db.blocks.length := getBlockHeight_lt heavier.onMain
  have root := heavier.root
  rw [List.length_take]
  omega

variable (state : TreeState tree rule received chain)

include state

theorem HeavierBranch.offMain
    (inBranch : id ∈ ((front :: rest).map BlockExtendedInfo.bl).map env.getBlockHash) :
    chain.db.blockExists env id = false := by
  rw [map_map] at inBranch
  obtain ⟨bei, mem, rfl⟩ := mem_map.mp inBranch
  exact state.apart _ bei (heavier.stored bei mem)

theorem HeavierBranch.mem_received :
    ∀ block ∈ (front :: rest).map BlockExtendedInfo.bl, block ∈ received := by
  intro block mem
  obtain ⟨bei, inBranch, rfl⟩ := mem_map.mp mem
  obtain ⟨path, record⟩ := state.recorded _ bei (heavier.stored bei inBranch)
  exact record.received _ mem_cons_self

theorem HeavierBranch.ids_nodup :
    (((front :: rest).map BlockExtendedInfo.bl).map env.getBlockHash).Nodup := by
  have known : ∀ other ∈ chain.branchPath (front :: rest) fork, other ∈ tree.blocks := by
    intro other mem
    rw [branchPath, mem_append, mem_reverse] at mem
    exact state.inTree other (mem.elim (heavier.mem_received state other)
      (state.main_take fork other))
  have nodup := tree.ids_nodup heavier.linked known
  rw [branchPath, map_append, map_reverse] at nodup
  exact nodup_reverse.mp nodup.of_append_left

variable (done : BranchAttached env chain (front :: rest) fork entries attached)

include done

theorem BranchAttached.displaced_offMain (above : entry ∈ chain.db.blocks.drop fork) :
    attached.db.blockExists env (env.getBlockHash entry.bl) = false := by
  rw [Bool.eq_false_iff, Ne, done.blockExists_iff]
  rintro (below | inBranch)
  · exact state.take_apart above below
  · have offMain := heavier.offMain state inBranch
    rw [Bool.eq_false_iff, Ne, BlockchainDB.blockExists_iff] at offMain
    exact offMain ⟨entry, mem_of_mem_drop above, rfl⟩

theorem BranchAttached.onFork {next : Block}
    (parent : next.prevId = tipId env.getBlockHash nullHash (attached.branchPath [] fork)) :
    OnBranch env rule attached next [] fork := by
  have root := heavier.root
  have length := heavier.length_take
  have below : attached.db.blocks.take fork = chain.db.blocks.take fork := by
    rw [done.blocks, take_left' length]
  have named : next.prevId = front.bl.prevId := by
    have last := lastBlockHash_getBlockHeight heavier.onMain
    rw [root, lastBlockHash_eq_tipId] at last
    rw [parent, ← last, branchPath, below]
    rfl
  have ids : chain.db.blockHashes env = (chain.db.blocks.take fork).map
          (fun entry => env.getBlockHash entry.bl) ++
        (chain.db.blocks.drop fork).map (fun entry => env.getBlockHash entry.bl) := by
    rw [← map_append, take_append_drop]
    rfl
  have inTake : front.bl.prevId ∈ (chain.db.blocks.take fork).map
      (fun entry => env.getBlockHash entry.bl) := by
    by_contra outside
    rw [BlockchainDB.getBlockHeight, ids,
      idxOf_append_of_notMem outside, length_map] at root
    omega
  have height : attached.db.getBlockHeight env next.prevId + 1 = fork := by
    rw [BlockchainDB.getBlockHeight, ids, idxOf_append_of_mem inTake] at root
    rw [named, BlockchainDB.getBlockHeight, BlockchainDB.blockHashes,
      done.blocks, map_append, idxOf_append_of_mem inTake]
    exact root
  have onMain : attached.db.blockExists env next.prevId = true := by
    rw [named, done.blockExists_iff]
    exact .inl inTake
  have absent : attached.db.altBlocks.lookup next.prevId = none := by
    rw [done.altBlocks, named]
    exact state.absent_of_main heavier.onMain
  have onBranch := OnBranch.of_main (done.run.preserves (fun step => step.syncedChain) state.synced)
    (done.run.preserves (fun step => step.minedChain) state.mined).entries
    absent onMain
  rwa [height] at onBranch

theorem BranchAttached.displaced {nesting : Nat} (fits : tree.Fits rule)
    (valid : (storeDisconnected (fun current block => handleAlternativeBlock
      (nesting + 1) current env now block .init)
        ((chain.db.blocks.drop fork).map bl) attached).2.1 = []) :
    ∃ final, storeDisconnected (fun current block => handleAlternativeBlock
        (nesting + 1) current env now block .init)
        ((chain.db.blocks.drop fork).map bl) attached = (final, [], true) ∧
      DisplacedStored env rule received attached.tipWork
        ((chain.db.blocks.drop fork).map bl) attached final := by
  have length := heavier.length_take
  have whole : ((chain.db.blocks.drop fork).map bl).reverse ++
      attached.branchPath [] fork = (chain.db.blocks.map bl).reverse := by
    rw [branchPath, done.blocks, take_left' length, map_nil,
      reverse_nil, nil_append, ← reverse_append,
      ← map_append, take_append_drop]
  obtain ⟨linked, known⟩ := state.main_linked
  have branchLength := congrArg List.length done.branch
  simp at branchLength
  refine storeDisconnected_stored (done.run.preserves (fun step => step.syncedChain) state.synced)
    (done.config.checkpoints.trans state.checkpoints) ?_
    (fun next parent => done.onFork heavier state parent) (by simp)
    (by rw [whole]; exact linked) (by rw [whole]; exact known) ?_ ?_ ?_ ?_ valid
  · rw [height, done.blocks, length_append]
    omega
  · intro newer older split
    rw [whole] at split
    have heavy := heavier.heavier
    rw [state.tipWork_eq, split] at heavy
    rw [split] at linked known
    rw [done.tipWork_eq state.synced]
    exact (fits.lastWork_le linked (fun other mem =>
      state.inTree other (known other mem))).trans heavy.le
  · have nodup := state.mainIds_nodup
    rw [blockHashes, ← take_append_drop fork chain.db.blocks, map_append] at nodup
    rw [map_map]
    exact nodup.of_append_right
  · intro other mem
    obtain ⟨entry, above, rfl⟩ := mem_map.mp mem
    rw [done.altBlocks]
    exact state.absent_of_main (BlockchainDB.blockExists_iff.mpr
      ⟨entry, mem_of_mem_drop above, rfl⟩)
  · intro other mem
    obtain ⟨entry, above, rfl⟩ := mem_map.mp mem
    exact done.displaced_offMain heavier state above

end

end Heavier

end Blockchain

/-! ## The branch becomes the main chain -/

namespace Blockchain

open BlockExtendedInfo

variable {env : Env} {tree : BlockTree env} {rule : WorkRule} {now : Nat}
  {received : List Block} {chain : Blockchain}

section Heavier

variable {front : BlockExtendedInfo} {rest : List BlockExtendedInfo}
  {fork : Nat} {entries : List BlockEntry} {attached : Blockchain}

structure SwitchedTo (env : Env) (branch : List BlockExtendedInfo)
    (final after : Blockchain) : Prop where
  blocks : after.db.blocks = final.db.blocks
  config : after.SameConfig final
  invalidBlocks : after.invalidBlocks = final.invalidBlocks
  lookups : ∀ id, after.db.altBlocks.lookup id =
    if id ∈ (branch.map bl).map env.getBlockHash then none
    else final.db.altBlocks.lookup id

section

variable {final after : Blockchain} (switched : SwitchedTo env (front :: rest) final after)
  (pushed : DisplacedStored env rule received attached.tipWork
    ((chain.db.blocks.drop fork).map BlockEntry.bl) attached final)

include switched pushed

theorem SwitchedTo.blockExists (id : Hash) :
    after.db.blockExists env id = attached.db.blockExists env id := by
  rw [BlockchainDB.blockExists, BlockchainDB.blockHashes, switched.blocks, pushed.blocks]
  rfl

variable (done : BranchAttached env chain (front :: rest) fork entries attached)

include done

theorem SwitchedTo.found {id : Hash} {bei : BlockExtendedInfo}
    (lookup : after.db.altBlocks.lookup id = some bei) :
    id ∉ ((front :: rest).map bl).map env.getBlockHash ∧
      (chain.db.altBlocks.lookup id = some bei ∨
        bei.bl ∈ (chain.db.blocks.drop fork).map BlockEntry.bl ∧ env.getBlockHash bei.bl = id ∧
          bei.cumulativeDifficulty ≤ attached.tipWork ∧
          ∃ path, AlternativeRecord env rule received bei path) := by
  rw [switched.lookups] at lookup
  split at lookup
  · simp at lookup
  · rename_i outside
    have cases := pushed.found id bei lookup
    rw [done.altBlocks] at cases
    exact ⟨outside, cases⟩

variable (state : TreeState tree rule received chain)
  (heavier : HeavierBranch env rule chain front rest fork)

include state heavier

theorem SwitchedTo.apart {id : Hash} {bei : BlockExtendedInfo}
    (lookup : after.db.altBlocks.lookup id = some bei) : after.db.blockExists env id = false := by
  rw [switched.blockExists pushed]
  rcases switched.found pushed done lookup with
    ⟨outside, before | ⟨above, named, -⟩⟩
  · have offMain := state.apart id bei before
    rw [Bool.eq_false_iff, Ne, BlockchainDB.blockExists_iff] at offMain
    rw [Bool.eq_false_iff, Ne, done.blockExists_iff]
    rintro (below | inBranch)
    · obtain ⟨entry, kept, named⟩ := mem_map.mp below
      exact offMain ⟨entry, mem_of_mem_take kept, named⟩
    · exact outside inBranch
  · obtain ⟨entry, dropped, same⟩ := mem_map.mp above
    rw [← named, ← same]
    exact done.displaced_offMain heavier state dropped

theorem SwitchedTo.stored {block : Block} (mem : block ∈ received) :
    after.db.blockExists env (env.getBlockHash block) = true ∨
      (after.db.altBlocks.lookup (env.getBlockHash block)).isSome = true := by
  rw [switched.blockExists pushed, done.blockExists_iff]
  rcases state.stored block mem with before | before
  · have inBranch : env.getBlockHash block ∉ ((front :: rest).map bl).map env.getBlockHash := by
      intro lt
      rw [heavier.offMain state lt] at before
      simp at before
    obtain ⟨entry, lt, named⟩ := BlockchainDB.blockExists_iff.mp before
    rw [← take_append_drop fork chain.db.blocks, mem_append] at lt
    rcases lt with below | above
    · exact .inl (.inl (mem_map.mpr ⟨entry, below, named⟩))
    · right
      rw [switched.lookups, if_neg inBranch, ← named]
      exact pushed.stored _ (mem_map_of_mem above)
  · by_cases inBranch : env.getBlockHash block ∈ ((front :: rest).map bl).map env.getBlockHash
    · exact .inl (.inr inBranch)
    · right
      obtain ⟨bei, lookup⟩ := Option.isSome_iff_exists.mp before
      rw [← done.altBlocks] at lookup
      rw [switched.lookups, if_neg inBranch, pushed.kept _ bei lookup]
      rfl

theorem BranchAttached.heaviestTip (run : NodeRun env chain after) :
    HeaviestTip tree rule received after ∧ chain.tipWork ≤ after.tipWork := by
  have sameBlocks : after.db.blocks = attached.db.blocks := switched.blocks.trans pushed.blocks
  have tipWork : after.tipWork = attached.tipWork := by
    rw [tipWork_eq_lastWork, tipWork_eq_lastWork, sameBlocks]
  have heavy : chain.tipWork < attached.tipWork := by
    rw [done.tipWork_eq state.synced]
    exact heavier.heavier
  refine ⟨⟨⟨run.preserves (fun step => step.minedChain) state.mined,
    run.preserves (fun step => step.syncedChain) state.synced,
    ((switched.config.trans pushed.config).trans done.config).checkpoints.trans state.checkpoints,
    ((switched.invalidBlocks.trans pushed.invalidBlocks).trans
      done.invalidBlocks).trans state.invalidBlocks,
    state.inTree, ?_, ?_, ?_, ?_, ?_⟩, ?_⟩, tipWork ▸ heavy.le⟩
  · intro entry mem
    rw [sameBlocks, done.blocks, mem_append] at mem
    rcases mem with below | attachedEntry
    · exact state.main entry (mem_of_mem_take below)
    · refine heavier.mem_received state _ ?_
      rw [← done.branch]
      exact mem_map_of_mem attachedEntry
  · intro id bei lookup
    rcases switched.found pushed done lookup with
      ⟨-, before | ⟨-, named, -⟩⟩
    · exact state.named id bei before
    · exact named
  · intro id bei lookup
    exact switched.apart pushed done state heavier lookup
  · intro id bei lookup
    rcases switched.found pushed done lookup with
      ⟨-, before | ⟨-, -, -, record⟩⟩
    · exact state.recorded id bei before
    · exact record
  · intro block mem
    exact switched.stored pushed done state heavier mem
  · intro id bei lookup
    rw [tipWork]
    rcases switched.found pushed done lookup with
      ⟨outside, before | ⟨-, -, light, -⟩⟩
    · rcases heavier.others id bei before with inBranch | light
      · refine absurd ?_ outside
        rw [← state.named id bei before, map_map]
        exact mem_map_of_mem inBranch
      · exact light.trans heavy.le
    · exact light

end

theorem TreeState.switch {nesting : Nat} (state : TreeState tree rule received chain)
    (fits : tree.Fits rule) (heavier : HeavierBranch env rule chain front rest fork)
    (valid : (switchToAlternativeBlockchain
      (fun current block => handleAlternativeBlock (nesting + 1) current env now
        block .init) chain env now (front :: rest) false).2.2 = []) :
    let after := (switchToAlternativeBlockchain
      (fun current block => handleAlternativeBlock (nesting + 1) current env now
        block .init) chain env now (front :: rest) false).1
    HeaviestTip tree rule received after ∧ chain.tipWork ≤ after.tipWork := by
  have run := @switchToAlternativeBlockchain_run env now .any
    (fun current block => handleAlternativeBlock (nesting + 1) current env now block .init)
    (fun current block held permitted => handleAlternativeBlock_run
      (fun _ _ => trivial) _ held permitted .init) chain (.any chain)
    (front :: rest) (fun _ _ => trivial) false
  obtain ⟨entries, attached, done, switched⟩ := state.attach heavier valid
  rw [switched] at valid run ⊢
  rw [finishSwitch_rejected] at valid
  obtain ⟨final, stored, pushed⟩ := done.displaced heavier state fits valid
  have present : ∀ id ∈ ((front :: rest).map bl).map
      env.getBlockHash, (final.db.altBlocks.lookup id).isSome = true := by
    intro id mem
    rw [map_map] at mem
    obtain ⟨bei, inBranch, rfl⟩ := mem_map.mp mem
    have kept := heavier.stored bei inBranch
    rw [← done.altBlocks] at kept
    rw [Function.comp_apply, pushed.kept _ bei kept]
    rfl
  obtain ⟨altBlocks, finished, lookups⟩ := finishSwitch_done stored
    (heavier.ids_nodup state) present
  rw [finished] at run ⊢
  refine done.heaviestTip ?_ pushed state heavier run
  exact ⟨rfl, ⟨rfl, rfl, rfl, rfl⟩, rfl, lookups⟩

end Heavier

/-! ## Whole calls -/

open Option

variable {block : Block}

theorem HeaviestTip.of_sameLedger {after : Blockchain}
    (tip : HeaviestTip tree rule received chain) (run : NodeRun env chain after)
    (ledger : after.SameLedger chain) (invalidBlocks : after.invalidBlocks = chain.invalidBlocks) :
    HeaviestTip tree rule received after ∧ chain.tipWork = after.tipWork := by
  have same : chain.tipWork = after.tipWork := by rw [tipWork, tipWork, ledger.db]
  refine ⟨⟨tip.toTreeState.of_sameLedger run ledger invalidBlocks, ?_⟩, same⟩
  rw [← same, ledger.db]
  exact tip.heaviest

theorem OnBranch.heavierBranch {branch : List BlockExtendedInfo} {fork : Nat}
    {bei front : BlockExtendedInfo} {rest : List BlockExtendedInfo}
    (onBranch : OnBranch env rule chain bei.bl branch fork)
    (tip : HeaviestTip tree rule received chain)
    (stored : ∀ other ∈ branch, chain.db.altBlocks.lookup (env.getBlockHash other.bl) = some other)
    (isNew : chain.db.altBlocks.lookup (env.getBlockHash bei.bl) = none)
    (work : bei.cumulativeDifficulty =
      rule.workAfter (rule.pathWork (chain.branchPath branch fork)))
    (heavy : chain.tipWork < bei.cumulativeDifficulty) (whole : branch ++ [bei] = front :: rest) :
    HeavierBranch env rule (chain.resetDifficultyCache.storeAlternative (env.getBlockHash bei.bl)
        bei) front rest fork := by
  have root : branchRoot branch bei.bl = front.bl.prevId := by
    cases branch with
    | nil =>
      obtain ⟨rfl, -⟩ := List.cons.inj whole
      rfl
    | cons first others =>
      obtain ⟨rfl, -⟩ := List.cons.inj whole
      rfl
  have path : (chain.resetDifficultyCache.storeAlternative
      (env.getBlockHash bei.bl) bei).branchPath (front :: rest) fork =
        bei.bl :: chain.branchPath branch fork := by
    rw [← whole]
    exact branchPath_append_singleton _ _ _ _
  constructor
  · rw [← root]
    exact onBranch.stored
  · rw [← root]
    exact onBranch.root
  · rw [path]
    exact onBranch.linked
  · rw [← whole]
    exact stored_storeAlternative stored isNew
  · rw [path, WorkRule.pathWork, WorkRule.lastWork_append_singleton, ← work]
    exact heavy
  · intro id other found
    rcases lookup_storeAlternative found with ⟨-, rfl⟩ | before
    · left
      rw [← whole]
      exact mem_append_right _ mem_cons_self
    · exact .inr (tip.heaviest id other before)

theorem HeaviestTip.handleAlternativeBlock {nesting : Nat} {bvc : BlockVerificationContext}
    (tip : HeaviestTip tree rule received chain) (fits : tree.Fits rule)
    (inTree : block ∈ tree.blocks)
    (isNew : chain.db.altBlocks.lookup (env.getBlockHash block) = none)
    (offMain : chain.db.blockExists env (env.getBlockHash block) = false) {path : List Block}
    (linked : Linked env.getBlockHash Block.prevId nullHash (block :: path))
    (known : ∀ other ∈ path, other ∈ received) (attached : path ≠ [])
    (valid : (Blockchain.handleAlternativeBlock (nesting + 2) chain env now
      block bvc).rejected = []) :
    let after := (Blockchain.handleAlternativeBlock (nesting + 2) chain env now
      block bvc).chain
    HeaviestTip tree rule (block :: received) after ∧ chain.tipWork ≤ after.tipWork := by
  obtain ⟨branch, fork, onBranch, rfl, stored⟩ := tip.onBranch linked known attached
  obtain ⟨altChain, bei, accepted⟩ := onBranch.checked (tip.leaves fits onBranch stored) isNew valid
  have facts := checkAlternativeBlock_accepted accepted
  have pathReceived : ∀ other ∈ block :: chain.branchPath branch fork,
      other ∈ block :: received := by
    intro other mem
    rcases mem_cons.mp mem with rfl | below
    · exact mem_cons_self
    · exact mem_cons_of_mem _ (known other below)
  obtain ⟨rfl, record⟩ := onBranch.resetDifficultyCache.record
    tip.synced.resetDifficultyCache pathReceived facts
  obtain rfl := facts.bl
  have reset := tip.toTreeState.of_sameLedger (resetDifficultyCache_run chain)
    ⟨⟨rfl, rfl, rfl, rfl⟩, rfl, rfl⟩ rfl
  have state := reset.store (.single (.storeAlternative _ _ altChain bei
    ⟨trivial, trivial⟩ accepted)) inTree offMain record
  by_cases light : bei.cumulativeDifficulty ≤ chain.tipWork
  · dsimp only
    rw [handleAlternativeBlock_stored tip.checkpoints accepted light]
    refine ⟨⟨state, ?_⟩, le_rfl⟩
    intro id other found
    rcases lookup_storeAlternative found with ⟨-, rfl⟩ | before
    · exact light
    · exact tip.heaviest id other before
  · obtain ⟨switched, rejected⟩ := handleAlternativeBlock_switched tip.checkpoints accepted
      (not_le.mp light)
    obtain ⟨front, rest, whole⟩ : ∃ front rest, altChain ++ [bei] = front :: rest :=
      exists_cons_of_ne_nil (by simp)
    rw [rejected, whole] at valid
    rw [switched, whole]
    exact state.switch fits (onBranch.heavierBranch tip stored isNew record.work
      (not_le.mp light) whole) valid

theorem TreeState.rooted (state : TreeState tree rule received chain) (mem : block ∈ received) :
    ∃ path, Linked env.getBlockHash Block.prevId nullHash (block :: path) ∧
      ∀ other ∈ block :: path, other ∈ received := by
  rcases state.stored block mem with onMain | alternative
  · obtain ⟨entry, lt, named⟩ := BlockchainDB.blockExists_iff.mp onMain
    obtain rfl := tree.distinct (state.inTree _ (state.main entry lt))
      (state.inTree block mem) named
    obtain ⟨linked, known⟩ := state.main_linked
    obtain ⟨prev, later, split⟩ := append_of_mem lt
    have path : (chain.db.blocks.map BlockEntry.bl).reverse = (later.map BlockEntry.bl).reverse ++
          entry.bl :: (prev.map BlockEntry.bl).reverse := by
      rw [split]
      simp
    rw [path] at linked known
    exact ⟨_, linked.of_append, fun other below => known other (mem_append_right _ below)⟩
  · obtain ⟨bei, found⟩ := isSome_iff_exists.mp alternative
    obtain ⟨path, record⟩ := state.recorded _ bei found
    obtain rfl := tree.distinct (state.inTree _ (record.received _ mem_cons_self))
      (state.inTree block mem) (state.named _ bei found)
    exact ⟨path, record.linked, record.received⟩

theorem TreeState.again (state : TreeState tree rule received chain) (mem : block ∈ received) :
    TreeState tree rule (block :: received) chain := by
  have subset : received ⊆ block :: received := subset_cons_self _ _
  have same : ∀ other ∈ block :: received, other ∈ received :=
    forall_mem_cons.mpr ⟨mem, fun _ before => before⟩
  refine ⟨state.mined, state.synced, state.checkpoints, state.invalidBlocks,
    fun other before => state.inTree other (same other before),
    fun entry lt => subset (state.main entry lt), state.named,
    state.apart, ?_, fun other before => state.stored other (same other before)⟩
  intro id bei found
  obtain ⟨path, record⟩ := state.recorded id bei found
  exact ⟨path, record.weaken subset⟩

theorem TreeState.received_of_haveBlock (state : TreeState tree rule received chain)
    (inTree : block ∈ tree.blocks) (have_ : chain.haveBlock env (env.getBlockHash block) = true) :
    block ∈ received := by
  rw [haveBlock, state.invalidBlocks] at have_
  simp at have_
  rcases have_ with onMain | alternative
  · obtain ⟨entry, lt, named⟩ := BlockchainDB.blockExists_iff.mp onMain
    have before := state.main entry lt
    rwa [tree.distinct (state.inTree _ before) inTree named] at before
  · obtain ⟨bei, found⟩ := isSome_iff_exists.mp alternative
    obtain ⟨path, record⟩ := state.recorded _ bei found
    have before := record.received _ mem_cons_self
    rwa [tree.distinct (state.inTree _ before) inTree (state.named _ bei found)] at before

/-- A call of `add_new_block` with a block of the tree whose parent was received. -/
structure Delivery (env : Env) (tree : BlockTree env) (received : List Block)
    (chain : Blockchain) (nesting now : Nat) (block : Block) : Prop where
  inTree : block ∈ tree.blocks
  parentFirst : received = [] ∧ block.prevId = nullHash ∨
    ∃ parent ∈ received, block.prevId = env.getBlockHash parent
  nested : 2 ≤ nesting
  valid : (addNewBlock nesting chain env now block .init).rejected = []

theorem HeaviestTip.append {now : Nat} {poolEntries : List PoolEntry} {entry : BlockEntry}
    {after : Blockchain} (tip : HeaviestTip tree rule received chain) (fits : tree.Fits rule)
    (inTree : block ∈ tree.blocks)
    (isNew : chain.db.altBlocks.lookup (env.getBlockHash block) = none)
    (run : NodeRun env chain after)
    (accepted : AcceptedBlock env now chain block poolEntries entry after) :
    HeaviestTip tree rule (block :: received) after ∧ chain.tipWork ≤ after.tipWork := by
  have state := tip.toTreeState.append run inTree isNew accepted
  have grown : chain.tipWork ≤ after.tipWork := by
    have bound := state.lastWork_take_le fits chain.db.blocks.length
    rwa [accepted.blocks, take_left, ← tip.tipWork_eq] at bound
  refine ⟨⟨state, ?_⟩, grown⟩
  intro id bei found
  have altBlocks : after.db.altBlocks = chain.db.altBlocks := by
    rw [accepted.db]
    rfl
  rw [altBlocks] at found
  exact (tip.heaviest id bei found).trans grown

theorem TreeState.parentReceived (state : TreeState tree rule received chain)
    (parentFirst : received = [] ∧ block.prevId = nullHash ∨
      ∃ parent ∈ received, block.prevId = env.getBlockHash parent)
    (aside : block.prevId ≠ chain.db.topBlockHash env) :
    ∃ parent ∈ received, block.prevId = env.getBlockHash parent := by
  rcases parentFirst with ⟨rfl, genesis⟩ | parent
  · have empty : chain.db.blocks = [] := eq_nil_iff_forall_not_mem.mpr
        (fun entry mem => not_mem_nil (state.main entry mem))
    refine absurd genesis ?_
    rwa [BlockchainDB.topBlockHash, empty] at aside
  · exact parent

theorem HeaviestTip.clearTxsCheck (tip : HeaviestTip tree rule received chain) :
    HeaviestTip tree rule received { chain with blocksTxsCheck := [] } := by
  have ledger : Blockchain.SameLedger { chain with blocksTxsCheck := [] } chain :=
    ⟨⟨rfl, rfl, rfl, rfl⟩, rfl, rfl⟩
  exact (tip.of_sameLedger (.cache ledger rfl) ledger rfl).1

theorem Delivery.heaviestTip {nesting : Nat}
    (delivery : Delivery env tree received chain nesting now block)
    (tip : HeaviestTip tree rule received chain) (fits : tree.Fits rule) :
    let after := (addNewBlock nesting chain env now block .init).chain
    HeaviestTip tree rule (block :: received) after ∧ chain.tipWork ≤ after.tipWork := by
  obtain ⟨inTree, parentFirst, nested, valid⟩ := delivery
  obtain ⟨nesting, rfl⟩ := Nat.exists_eq_add_of_le' nested
  unfold addNewBlock at valid ⊢
  dsimp only at valid ⊢
  by_cases stored : chain.haveBlock env (env.getBlockHash block) = true
  · rw [if_pos stored]
    have mem := tip.received_of_haveBlock inTree stored
    have again : HeaviestTip tree rule (block :: received) chain :=
      ⟨tip.toTreeState.again mem, tip.heaviest⟩
    exact ⟨again.clearTxsCheck, le_rfl⟩
  · rw [if_neg stored] at valid ⊢
    rw [haveBlock] at stored
    simp at stored
    obtain ⟨⟨offMain, isNew⟩, -⟩ := stored
    by_cases aside : block.prevId ≠ chain.db.topBlockHash env
    · rw [if_pos aside] at valid ⊢
      obtain ⟨parent, mem, named⟩ := tip.parentReceived parentFirst aside
      obtain ⟨path, linked, known⟩ := tip.rooted mem
      have handled := @HeaviestTip.handleAlternativeBlock env tree rule now
        received chain block nesting
        { BlockVerificationContext.init with addedToMainChain := false } tip
        fits inTree isNew offMain (parent :: path) ⟨named, linked⟩ known
        (by simp)
      generalize Blockchain.handleAlternativeBlock (nesting + 2) chain env now
        block { BlockVerificationContext.init with addedToMainChain := false } =
          result at valid handled ⊢
      obtain ⟨final, bvc, outcome, rejected⟩ := result
      cases outcome with
      | threw => exact handled valid
      | returned ok => exact ⟨(handled valid).1.clearTxsCheck, (handled valid).2⟩
    · rw [if_neg aside] at valid ⊢
      have run : NodeRun env chain (chain.handleBlockToMainChain env now block .init).chain :=
        .single (.mainBlock chain now block .init rfl trivial)
      rcases handleBlockToMainChain_cases chain now block .init rfl with
        ⟨poolEntries, entry, accepted, result, -⟩ | ⟨-, refused⟩
      · rw [result]
        exact tip.append fits inTree isNew run accepted
      · rcases resultEq : (chain.handleBlockToMainChain env now block .init).result with ok | threw
        · cases ok with
          | true => exact absurd resultEq refused
          | false =>
            rw [resultEq] at valid
            simp at valid
        · rw [resultEq] at valid
          simp at valid

end Blockchain

/-! ## Nodes that receive a tree in any order -/

open Blockchain

namespace Blockchain

structure FreshNode (start : Blockchain) : Prop extends StartsByHeight start where
  checkpoints : start.checkpoints = []
  invalidBlocks : start.invalidBlocks = []

/-- A node that has received the given blocks, the last one first; its pool may change. -/
inductive Arrivals (env : Env) (tree : BlockTree env) (start : Blockchain) :
    List Block → Blockchain → Prop
  | start : Arrivals env tree start [] start
  | block {received : List Block} {chain : Blockchain} {nesting now : Nat}
      {block : Block} (before : Arrivals env tree start received chain)
      (delivery : Delivery env tree received chain nesting now block) :
      Arrivals env tree start (block :: received)
        (addNewBlock nesting chain env now block .init).chain
  | pool {received : List Block} {chain after : Blockchain}
      (before : Arrivals env tree start received chain)
      (step : ChainStep env .any chain after)
      (ledger : after.SameLedger chain)
      (invalidBlocks : after.invalidBlocks = chain.invalidBlocks) :
      Arrivals env tree start received after

def mainBlocks (chain : Blockchain) : Set Block :=
  {block | ∃ entry ∈ chain.db.blocks, entry.bl = block}

def alternativeBlocks (chain : Blockchain) : Set Block :=
  {block | ∃ id bei, chain.db.altBlocks.lookup id = some bei ∧ bei.bl = block}

variable {env : Env} {tree : BlockTree env} {rule : WorkRule}
  {start chain : Blockchain} {received : List Block}

theorem FreshNode.heaviestTip (fresh : FreshNode start) :
    HeaviestTip tree start.workRule [] start := by
  have none_ : ∀ id, start.db.altBlocks.lookup id = none := by
    intro id
    rw [fresh.altBlocks, AList.lookup_empty]
  refine ⟨⟨Reachable.minedChain ⟨start, fresh.toIsInitial, .refl⟩,
    fresh.syncedChain, fresh.checkpoints, fresh.invalidBlocks, by simp, ?_, ?_,
    ?_, ?_, by simp⟩, ?_⟩
  · rw [fresh.blocks]
    simp
  all_goals simp [none_]

theorem Arrivals.heaviestTip (fresh : FreshNode start) (fits : tree.Fits start.workRule)
    (arrivals : Arrivals env tree start received chain) :
    HeaviestTip tree start.workRule received chain := by
  induction arrivals with
  | start => exact fresh.heaviestTip
  | block before delivery ih => exact (delivery.heaviestTip ih fits).1
  | pool before step ledger invalidBlocks ih =>
    exact (ih.of_sameLedger (.single step) ledger invalidBlocks).1

theorem TreeState.inter (state : TreeState tree rule received chain) :
    chain.mainBlocks ∩ chain.alternativeBlocks = ∅ := by
  refine Set.eq_empty_of_forall_notMem ?_
  rintro block ⟨⟨entry, lt, rfl⟩, id, bei, found, same⟩
  have offMain := state.apart id bei found
  rw [Bool.eq_false_iff, Ne, BlockchainDB.blockExists_iff] at offMain
  refine offMain ⟨entry, lt, ?_⟩
  rw [← same, state.named id bei found]

theorem TreeState.union (state : TreeState tree rule received chain) :
    chain.mainBlocks ∪ chain.alternativeBlocks = {block | block ∈ received} := by
  apply Set.Subset.antisymm
  · rintro block (⟨entry, lt, rfl⟩ | ⟨id, bei, found, rfl⟩)
    · exact state.main entry lt
    · obtain ⟨path, record⟩ := state.recorded id bei found
      exact record.received _ mem_cons_self
  · intro block mem
    have inTree := state.inTree block mem
    rcases state.stored block mem with onMain | alternative
    · left
      obtain ⟨entry, lt, named⟩ := BlockchainDB.blockExists_iff.mp onMain
      exact ⟨entry, lt, tree.distinct (state.inTree _ (state.main entry lt)) inTree named⟩
    · right
      obtain ⟨bei, found⟩ := Option.isSome_iff_exists.mp alternative
      obtain ⟨path, record⟩ := state.recorded _ bei found
      exact ⟨_, bei, found, tree.distinct (state.inTree _ (record.received _ mem_cons_self)) inTree
        (state.named _ bei found)⟩

theorem TreeState.main_le (state : TreeState tree rule received chain)
    (fits : tree.Fits rule) {entry : BlockEntry} (lt : entry ∈ chain.db.blocks) :
    entry.cumulativeDifficulty ≤ chain.tipWork := by
  obtain ⟨prev, later, split⟩ := append_of_mem lt
  have upTo : chain.db.blocks.take (prev.length + 1) = prev ++ [entry] := by
    rw [split, append_cons, take_left']
    simp
  have bound := state.lastWork_take_le fits (prev.length + 1)
  rw [← map_work_eq_pathWork (state.synced.worked.take _), upTo, map_append, map_cons, map_nil,
    WorkRule.lastWork_append_singleton] at bound
  exact bound

/-- After each call the top has the most work of all received blocks and no less than before, and
the main chain and the alternative blocks are disjoint and together the received ones. -/
theorem Arrivals.forkChoice (fresh : FreshNode start) (fits : tree.Fits start.workRule)
    (arrivals : Arrivals env tree start received chain) {nesting now : Nat} {block : Block}
    (delivery : Delivery env tree received chain nesting now block) :
    let after := (addNewBlock nesting chain env now block .init).chain
    (∀ entry ∈ after.db.blocks, entry.cumulativeDifficulty ≤ after.tipWork) ∧
      (∀ id bei, after.db.altBlocks.lookup id = some bei →
        bei.cumulativeDifficulty ≤ after.tipWork) ∧
      after.mainBlocks ∩ after.alternativeBlocks = ∅ ∧
      after.mainBlocks ∪ after.alternativeBlocks = {other | other ∈ block :: received} ∧
      chain.tipWork ≤ after.tipWork := by
  obtain ⟨tip, grown⟩ := delivery.heaviestTip (arrivals.heaviestTip fresh fits) fits
  exact ⟨fun entry inside => tip.main_le fits inside, tip.heaviest, tip.inter, tip.union, grown⟩

def handed (env : Env) : List Block → Blockchain
  | [] => empty
  | block :: earlier => (addNewBlock 2 (handed env earlier) env 240 block .init).chain

def handedInOrder (env : Env) : List Block → Bool
  | [] => true
  | block :: earlier =>
    decide (earlier = [] ∧ block.prevId = nullHash ∨
      ∃ parent ∈ earlier, block.prevId = env.getBlockHash parent) &&
    decide ((addNewBlock 2 (handed env earlier) env 240 block .init).rejected = []) &&
    handedInOrder env earlier

theorem empty_freshNode : FreshNode empty :=
  ⟨⟨⟨rfl, rfl, rfl⟩, HardFork.mainnetHardForks_byHeight rfl rfl, rfl⟩, rfl, rfl⟩

theorem handed_delivery {block : Block} (inOrder : handedInOrder env (block :: received) = true)
    (inTree : block ∈ tree.blocks) :
    Delivery env tree received (handed env received) 2 240 block := by
  rw [handedInOrder, Bool.and_eq_true, Bool.and_eq_true, decide_eq_true_eq,
    decide_eq_true_eq] at inOrder
  exact ⟨inTree, inOrder.1.1, le_rfl, inOrder.1.2⟩

theorem handed_arrivals (inOrder : handedInOrder env received = true)
    (inTree : ∀ block ∈ received, block ∈ tree.blocks) :
    Arrivals env tree empty received (handed env received) := by
  induction received with
  | nil => exact .start
  | cons block earlier ih =>
    rw [forall_mem_cons] at inTree
    have delivery := handed_delivery inOrder inTree.1
    rw [handedInOrder, Bool.and_eq_true] at inOrder
    exact .block (ih inOrder.2 inTree.2) delivery

def forkedBlocks : List Block :=
  [rivalChild, rivalBlock 10000000000 [], claimingBlock 1 1 10000000000 [], claimingBlock 0 0 0 []]

def forkedTree : BlockTree checkedEnv where
  blocks := {block | block ∈ forkedBlocks}
  distinct := by
    have distinct : ∀ left ∈ forkedBlocks, ∀ right ∈ forkedBlocks,
        checkedEnv.getBlockHash left = checkedEnv.getBlockHash right → left = right := by
      decide
    exact fun left first right second => distinct left first right second
  notNull := by
    have notNull : ∀ block ∈ forkedBlocks, checkedEnv.getBlockHash block ≠ nullHash := by decide
    exact notNull

theorem forkedTree_fits : forkedTree.Fits empty.workRule := by
  intro block path linked known
  have path_eq : ∀ ancestors : List Block, Linked checkedEnv.getBlockHash Block.prevId nullHash
        (block :: ancestors) →
      (∀ other ∈ ancestors, other ∈ forkedBlocks) → path = ancestors :=
    fun ancestors ancestorsLinked inTree => forkedTree.path_unique linked
      (forall_mem_cons.mp known).2 ancestorsLinked inTree
  have mem : block ∈ forkedBlocks := known block mem_cons_self
  simp [forkedBlocks] at mem
  rcases mem with rfl | rfl | rfl | rfl
  · rw [path_eq [rivalBlock 10000000000 [], claimingBlock 0 0 0 []]
      ⟨rfl, rfl, rfl, trivial⟩ (by decide)]
    decide
  · rw [path_eq [claimingBlock 0 0 0 []] ⟨rfl, rfl, trivial⟩ (by decide)]
    decide
  · rw [path_eq [claimingBlock 0 0 0 []] ⟨rfl, rfl, trivial⟩ (by decide)]
    decide
  · rw [path_eq [] ⟨rfl, trivial⟩ (by decide)]
    decide

theorem forkedArrivals_forkChoice :
    let after := handed checkedEnv forkedBlocks
    (∀ entry ∈ after.db.blocks, entry.cumulativeDifficulty ≤ after.tipWork) ∧
      (∀ id bei, after.db.altBlocks.lookup id = some bei →
        bei.cumulativeDifficulty ≤ after.tipWork) ∧
      after.mainBlocks ∩ after.alternativeBlocks = ∅ ∧
      after.mainBlocks ∪ after.alternativeBlocks = {other | other ∈ forkedBlocks} ∧
      (handed checkedEnv forkedBlocks.tail).tipWork ≤ after.tipWork := by
  have inOrder : handedInOrder checkedEnv forkedBlocks = true := by decide
  have earlier : handedInOrder checkedEnv forkedBlocks.tail = true := by decide
  exact Arrivals.forkChoice empty_freshNode forkedTree_fits
    (handed_arrivals earlier (fun _ member => mem_of_mem_tail member))
    (handed_delivery inOrder mem_cons_self)

theorem HeaviestTip.lastWork_le (tip : HeaviestTip tree rule received chain)
    (fits : tree.Fits rule) {path : List Block}
    (linked : Linked env.getBlockHash Block.prevId nullHash path)
    (known : ∀ other ∈ path, other ∈ received) :
    WorkRule.lastWork (rule.pathWork path) ≤ chain.tipWork := by
  cases path with
  | nil => exact Nat.zero_le _
  | cons block path =>
    have inTree : ∀ other ∈ path, other ∈ tree.blocks :=
      fun other mem => tip.inTree other (known other (mem_cons_of_mem _ mem))
    have isReceived : block ∈ chain.mainBlocks ∪ chain.alternativeBlocks := by
      rw [tip.union]
      exact known block mem_cons_self
    rcases isReceived with ⟨entry, lt, rfl⟩ | ⟨id, bei, found, rfl⟩
    · obtain ⟨mainLinked, mainKnown⟩ := tip.main_linked
      obtain ⟨newer, older, split⟩ := append_of_mem (mem_reverse.mpr (mem_map_of_mem lt))
      rw [split] at mainLinked mainKnown
      have mainTree : ∀ other ∈ newer ++ entry.bl :: older, other ∈ tree.blocks :=
        fun other mem => tip.inTree other (mainKnown other mem)
      have same : path = older := tree.path_unique linked inTree mainLinked.of_append
        (fun other mem => mainTree other (mem_append_right _ (mem_cons_of_mem _ mem)))
      rw [tip.tipWork_eq, split, same]
      exact fits.lastWork_le mainLinked mainTree
    · obtain ⟨below, record⟩ := tip.recorded id bei found
      have same : path = below := tree.path_unique linked inTree record.linked
        (fun other mem => tip.inTree other (record.received other (mem_cons_of_mem _ mem)))
      rw [WorkRule.pathWork, WorkRule.lastWork_append_singleton, same, ← record.work]
      exact tip.heaviest id bei found

/-- Nodes that have received the same blocks, in whatever orders, agree on the most work, and on the
main chain where only one chain has it. -/
theorem Arrivals.agreement {other after : Blockchain} {permuted : List Block}
    (fresh : FreshNode start) (otherFresh : FreshNode other)
    (sameRule : other.workRule = start.workRule) (fits : tree.Fits start.workRule)
    (same : ∀ block, block ∈ permuted ↔ block ∈ received)
    (arrivals : Arrivals env tree start received chain)
    (others : Arrivals env tree other permuted after) :
    chain.tipWork = after.tipWork ∧
      ((∀ path, Linked env.getBlockHash Block.prevId nullHash path →
          (∀ block ∈ path, block ∈ received) →
          WorkRule.lastWork (start.workRule.pathWork path) = chain.tipWork →
          path = (chain.db.blocks.map BlockEntry.bl).reverse) →
        after.db.blocks.map BlockEntry.bl = chain.db.blocks.map BlockEntry.bl) := by
  have tip := arrivals.heaviestTip fresh fits
  have otherTip := others.heaviestTip otherFresh (sameRule ▸ fits)
  rw [sameRule] at otherTip
  obtain ⟨linked, known⟩ := tip.main_linked
  obtain ⟨otherLinked, otherKnown⟩ := otherTip.main_linked
  have otherReceived : ∀ block ∈ (after.db.blocks.map BlockEntry.bl).reverse, block ∈ received :=
    fun block mem => (same block).mp (otherKnown block mem)
  have equal : chain.tipWork = after.tipWork := by
    apply le_antisymm
    · rw [tip.tipWork_eq]
      exact otherTip.lastWork_le fits linked (fun block mem => (same block).mpr (known block mem))
    · rw [otherTip.tipWork_eq]
      exact tip.lastWork_le fits otherLinked otherReceived
  refine ⟨equal, fun unique => ?_⟩
  exact reverse_injective
    (unique _ otherLinked otherReceived (otherTip.tipWork_eq.symm.trans equal.symm))

theorem forkedArrivals_agree : (handed checkedEnv forkedBlocks).tipWork =
    (handed checkedEnv [rivalChild, claimingBlock 1 1 10000000000 [],
      rivalBlock 10000000000 [], claimingBlock 0 0 0 []]).tipWork := by
  have same : ∀ block, block ∈ [rivalChild, claimingBlock 1 1 10000000000 [],
      rivalBlock 10000000000 [], claimingBlock 0 0 0 []] ↔ block ∈ forkedBlocks := by
    simp [forkedBlocks, or_left_comm]
  exact (Arrivals.agreement empty_freshNode empty_freshNode rfl forkedTree_fits same
    (handed_arrivals (by decide) (fun _ mem => mem))
    (handed_arrivals (by decide) (fun block mem => (same block).mp mem))).1

def nonceEnv : Env :=
  .accepting (fun block => block.nonce + 1) (fun tx => tx.unlockTime + 1)

def hurriedBlock (height : Nat) : Block where
  majorVersion := if height ≤ 1 then 1 else 16
  minorVersion := if height ≤ 1 then 1 else 16
  timestamp := if height = 20 then 11 else 0
  prevId := height
  nonce := height
  minerTx := { Transaction.setNull with
      version := if height ≤ 1 then 1 else 2
      unlockTime := height + 60
      vin := [.gen height]
      vout := List.replicate (min height 1) ⟨10000000000,
        if height ≤ 1 then .toKey 5 else .toTaggedKey 5 1⟩ }
  txHashes := []

def hurriedTree : BlockTree nonceEnv where
  blocks := Set.range hurriedBlock
  distinct := by
    rintro _ ⟨left, rfl⟩ _ ⟨right, rfl⟩ same
    exact congrArg hurriedBlock (Nat.succ.inj same)
  notNull := by
    rintro _ ⟨height, rfl⟩
    exact Nat.succ_ne_zero height

def hurriedBlocks (count : Nat) : List Block :=
  ((List.range count).map hurriedBlock).reverse

theorem hurriedTip_falls : FreshNode empty ∧ Arrivals nonceEnv hurriedTree empty (hurriedBlocks 21)
        (handed nonceEnv (hurriedBlocks 21)) ∧ Delivery nonceEnv hurriedTree (hurriedBlocks 21)
        (handed nonceEnv (hurriedBlocks 21)) 2 240 (hurriedBlock 21) ∧
      (handed nonceEnv (hurriedBlocks 21)).tipWork = 30912680532870672635673352936887453363 ∧
      (addNewBlock 2 (handed nonceEnv (hurriedBlocks 21)) nonceEnv 240
        (hurriedBlock 21) .init).chain.tipWork = 27859555788703183379644413907527824027 := by
  have inTree : ∀ block ∈ hurriedBlocks 21, block ∈ hurriedTree.blocks := by
    intro block member
    obtain ⟨height, -, rfl⟩ := mem_map.mp (mem_reverse.mp member)
    exact ⟨height, rfl⟩
  have inOrder : handedInOrder nonceEnv (hurriedBlock 21 :: hurriedBlocks 21) =
      true := by
    decide +kernel
  have earlier : handedInOrder nonceEnv (hurriedBlocks 21) = true := by
    rw [handedInOrder, Bool.and_eq_true] at inOrder
    exact inOrder.2
  exact ⟨empty_freshNode, handed_arrivals earlier inTree,
    handed_delivery inOrder ⟨21, rfl⟩, by decide +kernel, by decide +kernel⟩

end Blockchain

end LodeChain

import LodeChain.HardForkReplay

/-!
# Popped votes and scheduled versions

Without votes, the version in force and the stored ones are those `get_ideal_version` names.
-/

namespace LodeChain

open List HardFork

namespace HardFork

theorem take_append_cons_dropLast {votes : List Nat} (ne : votes ≠ [])
    (front : List Nat) (vote : Nat) : (front ++ vote :: votes.dropLast).take votes.length =
      (front ++ vote :: votes).take votes.length := by
  have whole : front ++ vote :: votes =
      (front ++ vote :: votes.dropLast) ++ [votes.getLast ne] := by
    rw [append_assoc, cons_append, dropLast_append_getLast]
  rw [whole]
  refine (take_append_of_le_length ?_).symm
  rw [length_append, length_cons, length_dropLast]
  omega

theorem popVotes_versions {hardfork : HardFork}
    (ne : hardfork.versions ≠ []) (hfVersions : HfVersions) (newChainHeight nblocks : Nat) :
    (hardfork.popVotes hfVersions newChainHeight nblocks).versions =
      ((List.range nblocks).map (fun index =>
        (hfVersions.lookup (newChainHeight + index)).getD 0) ++
          hardfork.versions).take hardfork.versions.length := by
  induction nblocks generalizing hardfork with
  | zero => simp [popVotes]
  | succ nblocks ih =>
    have length : (((hfVersions.lookup (newChainHeight + nblocks)).getD 0) ::
        hardfork.versions.dropLast).length = hardfork.versions.length := by
      have positive := length_pos_of_ne_nil ne
      rw [length_cons, length_dropLast]
      omega
    rw [popVotes, ih (cons_ne_nil _ _), length, range_succ, map_append, append_assoc]
    exact take_append_cons_dropLast ne _ _

theorem popVotes_fresh (hardfork : HardFork) (hfVersions : HfVersions)
    (newChainHeight nblocks : Nat) : (hardfork.popVotes hfVersions newChainHeight nblocks).fresh =
      hardfork.fresh := by
  induction nblocks generalizing hardfork with
  | zero => rfl
  | succ nblocks ih => exact ih _

structure CleanPop (hardfork : HardFork) (hfVersions : HfVersions)
    (blocks : List Block) (nblocks : Nat) : Prop where
  window : hardfork.windowSize ≤ blocks.length
  votes : ∀ index < nblocks, ∀ block,
    blocks[blocks.length - hardfork.windowSize + index]? = some block →
      hfVersions.lookup (blocks.length + index) = some (getBlockVote block)
  version : hfVersions.lookup blocks.length = some (hardfork.versionAt blocks.length)
  start : blocks.length = 1 → hardfork.currentForkIndex ≠ 0 →
    hardfork.originalVersion < (hardfork.entry 1).version

/-- The object and the stored versions that adding the blocks of a chain one by
one gives. -/
structure Replayed (table hardfork : HardFork) (hfVersions : HfVersions)
    (blocks : List Block) : Prop where
  accepted : table.AcceptsChain blocks
  object : hardfork = table.replay blocks
  stored : ListFacts.EachAfter (fun earlier _ =>
    hfVersions.lookup earlier.length = some (table.replay earlier).getCurrentVersion) blocks

namespace Replayed

variable {table hardfork : HardFork} {hfVersions : HfVersions} {blocks popped : List Block}

theorem add {block : Block} (replayed : Replayed table hardfork hfVersions blocks)
    (checked : hardfork.check block = true) :
    Replayed table (hardfork.add hfVersions block blocks.length).1
      (hardfork.add hfVersions block blocks.length).2 (blocks ++ [block]) := by
  obtain ⟨accepted, rfl, stored⟩ := replayed
  refine ⟨accepted.append_singleton checked,
    (table.replay_append_singleton blocks block hfVersions).symm, ?_⟩
  rw [add, if_pos checked]
  refine ListFacts.EachAfter.append_singleton ?_ (AList.lookup_insert _)
  intro prev entry later eq
  have below : prev.length ≠ blocks.length := by
    rw [eq, length_append, length_cons]
    omega
  rw [AList.lookup_insert_ne below]
  exact stored prev entry later eq

theorem of_append (replayed : Replayed table hardfork hfVersions (blocks ++ popped)) :
    Replayed table (table.replay blocks) hfVersions blocks :=
  ⟨replayed.accepted.of_append, rfl, replayed.stored.of_append⟩

theorem stored_length (replayed : Replayed table hardfork hfVersions
    (blocks ++ popped)) (ne : popped ≠ []) :
    hfVersions.lookup blocks.length = some (table.replay blocks).getCurrentVersion := by
  obtain ⟨block, rest, rfl⟩ := exists_cons_of_ne_nil ne
  exact replayed.stored blocks block rest rfl

theorem versions_ne_nil (replayed : Replayed table hardfork hfVersions blocks)
    (positive : 0 < table.windowSize) (ne : blocks ≠ []) : hardfork.versions ≠ [] := by
  have length := length_pos_of_ne_nil ne
  rw [replayed.object, replay_versions positive replayed.accepted]
  refine ne_nil_of_length_pos ?_
  rw [length_drop, length_map]
  omega

section

variable (replayed : Replayed table hardfork hfVersions (blocks ++ popped))

include replayed

theorem popVotes_versions_eq (positive : 0 < table.windowSize)
    (clean : hardfork.CleanPop hfVersions blocks popped.length) :
    (hardfork.popVotes hfVersions blocks.length popped.length).versions =
      (blocks.map getBlockVote).drop (blocks.length - table.windowSize) := by
  have windowSize : hardfork.windowSize = table.windowSize := by
    rw [replayed.object, windowSize_of_fresh (replay_fresh table _)]
  have full := windowSize ▸ clean.window
  have versions : hardfork.versions = ((blocks ++ popped).map getBlockVote).drop
        (blocks.length + popped.length - table.windowSize) := by
    rw [replayed.object, replay_versions positive replayed.accepted, length_append]
  have length : hardfork.versions.length = table.windowSize := by
    rw [versions, length_drop, length_map, length_append]
    omega
  rw [popVotes_versions (ne_nil_of_length_pos (by omega))]
  refine ext_getElem ?_ ?_
  · simp
    omega
  · intro index inTaken inDropped
    have inWindow : index < table.windowSize := by
      rw [length_drop, length_map] at inDropped
      omega
    have inBlocks : blocks.length - table.windowSize + index <
        blocks.length := by omega
    rw [getElem_take, getElem_drop, getElem_map]
    rcases lt_or_ge index popped.length with entered | stayed
    · have found := clean.votes index entered _ (by
        rw [windowSize, getElem?_eq_getElem inBlocks])
      rw [getElem_append_left (by simpa using entered), getElem_map,
        getElem_range, found, Option.getD_some]
    · rw [getElem_append_right (by simpa using stayed)]
      simp only [versions, getElem_drop, getElem_map, length_map, length_range]
      have position : blocks.length + popped.length - table.windowSize +
          (index - popped.length) = blocks.length - table.windowSize + index := by
        omega
      simp [position]
      rw [getElem_append_left]

theorem onBlockPopped_eq (positive : 0 < table.windowSize)
    (rows : table.heights ≠ []) (ordered : InOrder table.heights) (ne : popped ≠ [])
    (clean : hardfork.CleanPop hfVersions blocks popped.length) :
    hardfork.onBlockPopped hfVersions blocks.length popped.length = table.replay blocks := by
  have same : hardfork.fresh = table.fresh := by rw [replayed.object, replay_fresh]
  have heights := heights_of_fresh same
  refine eq_of_fresh ?_ ?_ ?_
  · have popped := popVotes_fresh hardfork hfVersions blocks.length popped.length
    exact popped.trans (same.trans (replay_fresh table blocks).symm)
  · exact (replayed.popVotes_versions_eq positive clean).trans
      (replay_versions positive replayed.accepted.of_append).symm
  · have version := clean.version
    rw [replayed.stored_length ne, Option.some.injEq, versionAt,
      getCurrentVersion, entry, entry, heights,
      heights_of_fresh (replay_fresh table blocks)] at version
    change reachedForkIndex hardfork.heights blocks.length = _
    rw [heights]
    exact (eq_of_entry_version_eq ordered (replay_currentForkIndex_lt rows blocks)
      (reachedForkIndex_lt rows _) version).symm

theorem reorganizeFromBlockHeight_eq (positive : 0 < table.windowSize)
    (rows : table.heights ≠ []) (ordered : InOrder table.heights) (kept : blocks ≠ [])
    (start : blocks.length = 1 → hardfork.currentForkIndex ≠ 0 →
      table.originalVersion < (table.entry 1).version) :
    hardfork.reorganizeFromBlockHeight hfVersions blocks (blocks.length - 1) =
      (table.replay blocks, hfVersions) := by
  obtain ⟨prev, last, rfl⟩ := (eq_nil_or_concat' blocks).resolve_left kept
  have length : (prev ++ [last]).length - 1 = prev.length := by simp
  have index : (table.replay prev).currentForkIndex ≤
      hardfork.currentForkIndex := by
    rw [replayed.object, append_assoc]
    exact replay_currentForkIndex_le table prev _
  rw [length]
  refine reorganizeFromBlockHeight_eq_replay ?_ positive ordered
    replayed.accepted.of_append index ?_
    (replayed.stored prev last popped (append_assoc _ _ _)) ?_
  · rw [replayed.object, replay_fresh]
  · rw [replayed.object]
    exact replay_currentForkIndex_lt rows _
  · intro empty
    exact start (by rw [empty]; rfl)

end

end Replayed

end HardFork

namespace HardForkState

def Replayed (table : HardFork) (state : HardForkState) : Prop :=
  ∃ hardfork : HardFork, state.object = hardfork.counted ∧
    HardFork.Replayed table hardfork state.hfVersions state.blocks

def CleanPop (state : HardForkState) (nblocks : Nat) : Prop :=
  state.object.toHardFork.CleanPop state.hfVersions (state.remaining nblocks) nblocks

/-- The states of a node that adds and pops blocks, every pop being clean. -/
inductive VotingRun (hardfork : HardFork) (lastVersions : Nat → Nat) : HardForkState → Prop
  | start : VotingRun hardfork lastVersions (start hardfork lastVersions)
  | add {state : HardForkState} (run : VotingRun hardfork lastVersions state)
      (block : Block) : VotingRun hardfork lastVersions (state.addBlock block)
  | pop {state : HardForkState} (run : VotingRun hardfork lastVersions state)
      {nblocks : Nat} (positive : 0 < nblocks)
      (below : nblocks < state.blocks.length) (clean : state.CleanPop nblocks) :
      VotingRun hardfork lastVersions (state.popBlocks nblocks)

variable {table : HardFork} {state : HardForkState}

theorem start_replayed (hardfork : HardFork) (lastVersions : Nat → Nat) :
    Replayed hardfork.placeholder (start hardfork lastVersions) := by
  have object : hardfork.init ∅ [] = hardfork.placeholder.replay [] := by rfl
  refine ⟨hardfork.init ∅ [], ?_, ListFacts.EachAfter.nil, object, ListFacts.EachAfter.nil⟩
  exact init_counted { hardfork with lastVersions := lastVersions } ∅ []

theorem Replayed.add (replayed : Replayed table state) (block : Block) :
    Replayed table (state.addBlock block) := by
  obtain ⟨hardfork, object, replayed⟩ := replayed
  have added := add_counted hardfork state.hfVersions block state.blocks.length
  unfold addBlock
  rw [object]
  split
  · rename_i checked
    refine ⟨_, congrArg Prod.fst added, ?_⟩
    rw [added]
    exact replayed.add checked
  · exact ⟨hardfork, object, replayed⟩

section Pop

variable {nblocks : Nat} (tablePositive : 0 < table.windowSize)
  (rows : table.heights ≠ []) (ordered : HardFork.InOrder table.heights)
  (positive : 0 < nblocks) (below : nblocks < state.blocks.length) (clean : state.CleanPop nblocks)

include tablePositive rows ordered positive below clean

theorem Replayed.popBlocks (replayed : Replayed table state) :
    (state.popBlocks nblocks).object = (table.replay (state.remaining nblocks)).counted ∧
      Replayed table (state.popBlocks nblocks) ∧
      state.object.reorganizeFromBlockHeight state.hfVersions
        (state.remaining nblocks) ((state.remaining nblocks).length - 1) =
          ((table.replay (state.remaining nblocks)).counted, state.hfVersions) := by
  obtain ⟨hardfork, object, replayed⟩ := replayed
  have found := clean
  rw [CleanPop, object] at found
  have kept : state.remaining nblocks ≠ [] := by
    rw [← length_pos_iff, state.remaining_length]
    omega
  have length : (state.blocks.drop (state.blocks.length - nblocks)).length = nblocks := by
    rw [length_drop]
    omega
  have ne : state.blocks.drop (state.blocks.length - nblocks) ≠ [] :=
    ne_nil_of_length_pos (by omega)
  have second : hardfork.entry 1 = table.entry 1 ∧
      hardfork.originalVersion = table.originalVersion := by
    rw [replayed.object, entry, heights_of_fresh (replay_fresh table _)]
    exact ⟨rfl, (HardFork.mk.inj (HardFork.replay_fresh table _)).1⟩
  rw [← state.remaining_append] at replayed
  have voted := replayed.versions_ne_nil tablePositive (append_ne_nil_of_left_ne_nil kept _)
  have popped := replayed.onBlockPopped_eq tablePositive rows ordered ne (length.symm ▸ found)
  have rescanned := replayed.reorganizeFromBlockHeight_eq tablePositive rows
    ordered kept (second.1 ▸ second.2 ▸ found.start)
  rw [length] at popped
  have after : (state.popBlocks nblocks).object =
      (table.replay (state.remaining nblocks)).counted := by
    rw [HardForkState.popBlocks, object, ← popped]
    exact onBlockPopped_counted _ _ _ _ voted
  refine ⟨after, ⟨_, after, replayed.of_append⟩, ?_⟩
  rw [object, reorganizeFromBlockHeight_counted, rescanned]

end Pop

theorem VotingRun.replayed {hardfork : HardFork} {lastVersions : Nat → Nat}
    (positive : 0 < hardfork.windowSize) (ordered : HardFork.InOrder hardfork.heights)
    (run : VotingRun hardfork lastVersions state) : Replayed hardfork.placeholder state := by
  have placed : 0 < hardfork.placeholder.windowSize := positive
  induction run with
  | start => exact start_replayed hardfork lastVersions
  | add run block ih => exact ih.add block
  | pop run popped below clean ih =>
    exact (ih.popBlocks placed (placeholder_heights_ne_nil hardfork)
      ordered.placeholder popped below clean).2.1

/-- When all pops are clean, votes, counters and index after a pop are those of a rescan of the
remaining chain. -/
theorem popBlocks_eq_reorganizeFromBlockHeight
    {originalVersion originalVersionTillHeight windowSize : Nat} (windowPositive : 0 < windowSize)
    {rows : List HardForkEntry} {hardfork : HardFork}
    (accepted : (create originalVersion originalVersionTillHeight
      windowSize).addForks rows = some hardfork) {lastVersions : Nat → Nat} {state : HardForkState}
    (run : VotingRun hardfork lastVersions state) {nblocks : Nat} (positive : 0 < nblocks)
    (below : nblocks < state.blocks.length) (clean : state.CleanPop nblocks) :
    (state.popBlocks nblocks).object =
      (state.object.reorganizeFromBlockHeight state.hfVersions (state.remaining nblocks)
        ((state.remaining nblocks).length - 1)).1 := by
  obtain ⟨rfl, ordered⟩ := addForks_create accepted
  obtain ⟨popped, -, rescanned⟩ := (run.replayed windowPositive ordered).popBlocks
    windowPositive (placeholder_heights_ne_nil _) ordered.placeholder
    positive below clean
  rw [popped, rescanned]

theorem secondVote_popBlocks_eq :
    let state :=
      ((((start ⟨1, 1, 2, mainnetHardForks, [], 0⟩ fun _ => 0).addBlock
        (versionedBlock 1 0)).addBlock (versionedBlock 1 16)).addBlock
        (versionedBlock 16 16)).addBlock (versionedBlock 16 16)
    state.CleanPop 1 ∧ (state.popBlocks 1).object =
      (state.object.reorganizeFromBlockHeight state.hfVersions
        (state.remaining 1) ((state.remaining 1).length - 1)).1 := by
  have accepted : (create 1 1 2).addForks mainnetHardForks =
      some ⟨1, 1, 2, mainnetHardForks, [], 0⟩ := rfl
  have first : VotingRun ⟨1, 1, 2, mainnetHardForks, [], 0⟩ (fun _ => 0) _ := .start
  have run := (((first.add (versionedBlock 1 0)).add
    (versionedBlock 1 16)).add (versionedBlock 16 16)).add
    (versionedBlock 16 16)
  intro state
  have clean : state.CleanPop 1 := by
    refine ⟨by decide +kernel, ?_, by decide +kernel, ?_⟩
    · intro index inside block found
      rw [Nat.lt_one_iff.mp inside] at found ⊢
      have second : (state.remaining 1)[1]? = some (versionedBlock 1 16) := by decide +kernel
      rw [← Option.some.inj (second.symm.trans found)]
      decide +kernel
    · intro one
      exact absurd one (by decide +kernel)
  exact ⟨clean, popBlocks_eq_reorganizeFromBlockHeight (by decide) accepted run
    one_pos (by decide +kernel) clean⟩

/-- On the main network, the window after the block at height one is popped has
a vote too many. -/
theorem secondBlock_popBlocks_ne :
    let state :=
      ((start ⟨1, 1, 10080, mainnetHardForks, [], 0⟩ fun _ => 0).addBlock
        (versionedBlock 1 0)).addBlock (versionedBlock 1 0)
    let rescanned := (state.object.reorganizeFromBlockHeight state.hfVersions
        (state.remaining 1) ((state.remaining 1).length - 1)).1
    (state.popBlocks 1).object.versions = [1, 1] ∧ (state.popBlocks 1).object.lastVersions 1 = 2 ∧
      rescanned.versions = [1] ∧ rescanned.lastVersions 1 = 1 := by
  refine ⟨by decide +kernel, by decide +kernel, by decide +kernel, by decide +kernel⟩

end HardForkState

/-! ## Versions that follow the schedule -/

variable {rows : List HardForkEntry} {height : Nat} {block : Block}

namespace HardFork

theorem forkIndexOfVersion_getElem
    (increasing : rows.Pairwise fun prev later => prev.version < later.version) {index : Nat}
    (lt : index < rows.length) : forkIndexOfVersion rows[index].version rows = index := by
  induction rows generalizing index with
  | nil => simp at lt
  | cons row rest ih =>
    rcases rest with _ | ⟨next, rest⟩
    · simp at lt
      rw [forkIndexOfVersion]
      · omega
      · simp
    · rw [forkIndexOfVersion]
      rcases index with _ | index
      · rw [getElem_cons_zero, if_pos rfl]
      · have below : index < (next :: rest).length := by simpa using lt
        have later := (pairwise_cons.mp increasing).1 _ (getElem_mem below)
        rw [getElem_cons_succ, if_neg later.ne, ih (pairwise_cons.mp increasing).2]

theorem reachedForkIndex_zero (ordered : InOrder rows) : reachedForkIndex rows 0 = 0 := by
  have none : ∀ count < rows.length, forkIndexForHeight rows 0 count = 0 := by
    intro count lt
    induction count with
    | zero => rfl
    | succ count ih =>
      have above := pairwise_iff_getElem.mp ordered 0 _ (by omega) lt (by omega)
      rw [forkIndexForHeight, getD_eq_getElem _ _ lt, if_neg, ih (by omega)]
      omega
  rcases rows with _ | ⟨row, rest⟩
  · rfl
  · exact none _ (by simp)

variable {hardfork : HardFork}

theorem Synced.of_inForce {restored : HardFork} {hfVersions : HfVersions} {blocks : List Block}
    (byHeight : hardfork.ByHeight) (same : restored.SameTable hardfork)
    (inForce : restored.InForce blocks.length)
    (stored : ∀ height < blocks.length, hfVersions.lookup height = some (hardfork.versionAt height))
    (fits : ∀ height block, blocks[height]? = some block →
      hardfork.fitsHeight height block = true) : restored.Synced hfVersions blocks := by
  refine ⟨same.byHeight byHeight, inForce, ?_, ?_⟩
  · intro height below
    rw [same.versionAt]
    exact stored height below
  · intro height block found
    rw [same.fitsHeight]
    exact fits height block found

theorem rescanFromBlockHeight_sameTable (hardfork : HardFork)
    (hfVersions : HfVersions) (blocks : List Block) (height : Nat) :
    (hardfork.rescanFromBlockHeight hfVersions blocks height).SameTable hardfork := by
  unfold rescanFromBlockHeight
  split <;> exact ⟨rfl, rfl⟩

variable {hfVersions : HfVersions}

theorem rescanFromBlockHeight_inForce {blocks : List Block}
    (byHeight : hardfork.ByHeight) (rows : hardfork.heights ≠ [])
    (stored : ∀ height < blocks.length, hfVersions.lookup height = some (hardfork.versionAt height))
    (lt : height < blocks.length) :
    (hardfork.rescanFromBlockHeight hfVersions blocks height).InForce blocks.length := by
  have reached := reachedForkIndex_lt rows (blocks.length - 1)
  have found : forkIndexOfVersion
      ((hfVersions.lookup (blocks.length - 1)).getD 0) hardfork.heights =
        reachedForkIndex hardfork.heights (blocks.length - 1) := by
    rw [stored _ (by omega), Option.getD_some, versionAt, entry, getD_eq_getElem _ _ reached,
      forkIndexOfVersion_getElem byHeight.increasing]
  rw [rescanFromBlockHeight, if_neg (by omega)]
  dsimp only
  rw [found]
  refine raiseForkIndex_inForce ?_ ?_
  · exact ⟨byHeight.unvoted, byHeight.increasing, byHeight.first⟩
  · exact reachedForkIndex_mono _ (Nat.sub_le _ _)

theorem rescanFromChainHeight_sameTable (hardfork : HardFork)
    (hfVersions : HfVersions) (blocks : List Block) (height : Nat) :
    (hardfork.rescanFromChainHeight hfVersions blocks height).SameTable hardfork := by
  unfold rescanFromChainHeight
  split
  · exact ⟨rfl, rfl⟩
  · exact rescanFromBlockHeight_sameTable _ _ _ _

theorem init_rescan_lt (windowSize : Nat) {length : Nat} (ne : 0 < length) :
    (if windowSize < length then length - (windowSize - 1) else 1) ≠ 0 ∧
      (if windowSize < length then length - (windowSize - 1) else 1) - 1 <
        length := by
  split <;> omega

theorem init_sameTable (hardfork : HardFork) (hfVersions : HfVersions) (blocks : List Block) :
    (hardfork.init hfVersions blocks).SameTable hardfork.placeholder :=
  rescanFromChainHeight_sameTable { hardfork.placeholder with
      versions := []
      currentForkIndex := 0 } hfVersions blocks _

theorem init_inForce {hardfork : HardFork} {hfVersions : HfVersions} {blocks : List Block}
    (byHeight : hardfork.placeholder.ByHeight) (ordered : InOrder hardfork.heights)
    (stored : ∀ height < blocks.length, hfVersions.lookup height =
      some (hardfork.placeholder.versionAt height)) :
    (hardfork.init hfVersions blocks).InForce blocks.length := by
  have rows := placeholder_heights_ne_nil hardfork
  rw [init, rescanFromChainHeight]
  rcases eq_zero_or_pos blocks.length with empty | ne
  · rw [empty, if_neg (by simp), rescanFromBlockHeight, if_pos (by omega)]
    exact (reachedForkIndex_zero ordered.placeholder).symm
  · obtain ⟨pos, lt⟩ := init_rescan_lt _ ne
    rw [if_neg pos]
    exact rescanFromBlockHeight_inForce
      ⟨byHeight.unvoted, byHeight.increasing, byHeight.first⟩ rows stored lt

def StoredOnSchedule (hardfork : HardFork) (hfVersions : HfVersions) : Prop :=
  ∀ height version, hfVersions.lookup height = some version → version = hardfork.versionAt height

theorem StoredOnSchedule.of_sameTable {other : HardFork} {hfVersions : HfVersions}
    (stored : hardfork.StoredOnSchedule hfVersions) (same : other.SameTable hardfork) :
    other.StoredOnSchedule hfVersions := by
  intro height version found
  rw [same.versionAt]
  exact stored height version found

theorem StoredOnSchedule.add (stored : hardfork.StoredOnSchedule hfVersions)
    (inForce : hardfork.InForce height) (block : Block) :
    (hardfork.add hfVersions block height).1.StoredOnSchedule
      (hardfork.add hfVersions block height).2 := by
  refine StoredOnSchedule.of_sameTable ?_ (add_sameTable hardfork hfVersions block height)
  unfold HardFork.add
  split
  · intro other version found
    by_cases same : other = height
    · rw [same, AList.lookup_insert, Option.some.injEq, inForce.getCurrentVersion] at found
      rw [same, found]
    · rw [AList.lookup_insert_ne same] at found
      exact stored other version found
  · exact stored

theorem StoredOnSchedule.addAll {state : HardFork × HfVersions}
    {done : List Block} (rest : List Block) (synced : state.1.Synced state.2 done)
    (accepted : AcceptsAll state done.length rest) (stored : state.1.StoredOnSchedule state.2) :
    (addAll state done.length rest).1.StoredOnSchedule (addAll state done.length rest).2 := by
  induction rest generalizing state done with
  | nil => exact stored
  | cons block rest ih =>
    have later := ih (synced.add accepted.1) (by simpa using accepted.2)
      (stored.add synced.inForce block)
    simpa [HardFork.addAll] using later

theorem StoredOnSchedule.reorganizeFromBlockHeight {blocks : List Block}
    (stored : hardfork.StoredOnSchedule hfVersions)
    (synced : hardfork.Synced hfVersions blocks) (height : Nat) :
    (hardfork.reorganizeFromBlockHeight hfVersions blocks height).1.StoredOnSchedule
      (hardfork.reorganizeFromBlockHeight hfVersions blocks height).2 := by
  unfold HardFork.reorganizeFromBlockHeight
  split
  · exact stored
  · rename_i lt
    have taken : (blocks.take (height + 1)).length = height + 1 := by
      rw [List.length_take]
      omega
    obtain ⟨rescanned, accepted⟩ := synced.rescanned (Nat.lt_of_not_le lt)
    have replayed := StoredOnSchedule.addAll _ rescanned accepted (stored.of_sameTable ⟨rfl, rfl⟩)
    rwa [taken] at replayed

theorem add_versions_ne_nil (voted : hardfork.check block = true ∨ hardfork.versions ≠ [])
    (hfVersions : HfVersions) (height : Nat) :
    (hardfork.add hfVersions block height).1.versions ≠ [] := by
  unfold add
  split
  · exact append_ne_nil_of_right_ne_nil _ (cons_ne_nil _ _)
  · rename_i refused
    exact voted.resolve_left refused

theorem addAll_versions_ne_nil {state : HardFork × HfVersions}
    (voted : state.1.versions ≠ []) (height : Nat) (blocks : List Block) :
    (addAll state height blocks).1.versions ≠ [] := by
  induction blocks generalizing state height with
  | nil => exact voted
  | cons block rest ih => exact ih (add_versions_ne_nil (.inr voted) _ _) _

theorem reorganizeFromBlockHeight_versions_ne_nil (voted : hardfork.versions ≠ [])
    (hfVersions : HfVersions) (blocks : List Block) (height : Nat) :
    (hardfork.reorganizeFromBlockHeight hfVersions blocks height).1.versions ≠ [] := by
  unfold reorganizeFromBlockHeight
  split
  · exact voted
  · rename_i lt
    refine addAll_versions_ne_nil ?_ _ _
    intro empty
    have length := congrArg List.length empty
    simp [raiseForkIndex, rescan, List.length_take] at length
    omega

theorem popVotes_versions_ne_nil (voted : hardfork.versions ≠ []) (hfVersions : HfVersions)
    (newChainHeight nblocks : Nat) :
    (hardfork.popVotes hfVersions newChainHeight nblocks).versions ≠ [] := by
  induction nblocks generalizing hardfork with
  | zero => exact voted
  | succ nblocks ih => exact ih (cons_ne_nil _ _)

theorem init_versions_ne_nil (hardfork : HardFork) (hfVersions : HfVersions)
    {blocks : List Block} (ne : blocks ≠ []) :
    (hardfork.init hfVersions blocks).versions ≠ [] := by
  obtain ⟨pos, lt⟩ := init_rescan_lt _ (length_pos_of_ne_nil ne)
  rw [init, rescanFromChainHeight, if_neg pos, rescanFromBlockHeight,
    if_neg (not_le.mpr lt)]
  intro empty
  have length := congrArg List.length empty
  simp [raiseForkIndex] at length
  omega

/-- An object without votes that belongs to a chain and its stored versions. -/
structure OnSchedule (hardfork : HardFork) (hfVersions : HfVersions)
    (blocks : List Block) : Prop where
  rows : hardfork.heights ≠ []
  ordered : InOrder hardfork.heights
  voted : blocks ≠ [] → hardfork.versions ≠ []
  synced : hardfork.Synced hfVersions blocks
  stored : hardfork.StoredOnSchedule hfVersions

namespace OnSchedule

variable {blocks : List Block}

theorem add (onSchedule : hardfork.OnSchedule hfVersions blocks)
    (checked : hardfork.check block = true) :
    (hardfork.add hfVersions block blocks.length).1.OnSchedule
      (hardfork.add hfVersions block blocks.length).2 (blocks ++ [block]) := by
  have same := add_sameTable hardfork hfVersions block blocks.length
  exact ⟨same.1 ▸ onSchedule.rows, same.1 ▸ onSchedule.ordered,
    fun _ => add_versions_ne_nil (.inl checked) _ _,
    onSchedule.synced.add checked,
    onSchedule.stored.add onSchedule.synced.inForce block⟩

theorem onBlockPopped {popped : List Block}
    (onSchedule : hardfork.OnSchedule hfVersions (blocks ++ popped))
    (ne : blocks ≠ []) (nblocks : Nat) :
    (hardfork.onBlockPopped hfVersions blocks.length nblocks).OnSchedule hfVersions blocks := by
  have same : (hardfork.onBlockPopped hfVersions blocks.length nblocks).SameTable
        hardfork := popVotes_sameTable hardfork hfVersions _ nblocks
  have voted := onSchedule.voted (append_ne_nil_of_left_ne_nil ne popped)
  exact ⟨same.1 ▸ onSchedule.rows, same.1 ▸ onSchedule.ordered,
    fun _ => popVotes_versions_ne_nil voted _ _ _,
    onSchedule.synced.onBlockPopped nblocks,
    onSchedule.stored.of_sameTable same⟩

section

variable (onSchedule : hardfork.OnSchedule hfVersions blocks)

include onSchedule

theorem reorganizeFromBlockHeight (height : Nat) :
    (hardfork.reorganizeFromBlockHeight hfVersions blocks height).1.OnSchedule
      (hardfork.reorganizeFromBlockHeight hfVersions blocks height).2 blocks := by
  have same := reorganizeFromBlockHeight_sameTable hardfork hfVersions blocks height
  exact ⟨same.1 ▸ onSchedule.rows, same.1 ▸ onSchedule.ordered,
    fun ne => reorganizeFromBlockHeight_versions_ne_nil (onSchedule.voted ne) _ _ _,
    onSchedule.synced.reorganizeFromBlockHeight height,
    onSchedule.stored.reorganizeFromBlockHeight onSchedule.synced height⟩

theorem reorganizeFromChainHeight (height : Nat) :
    (hardfork.reorganizeFromChainHeight hfVersions blocks height).1.OnSchedule
      (hardfork.reorganizeFromChainHeight hfVersions blocks height).2 blocks := by
  unfold HardFork.reorganizeFromChainHeight
  split
  · exact onSchedule
  · exact onSchedule.reorganizeFromBlockHeight _

theorem init : (hardfork.init hfVersions blocks).OnSchedule hfVersions blocks := by
  have same := init_sameTable hardfork hfVersions blocks
  have inForce := @init_inForce hardfork hfVersions blocks
  rw [placeholder_of_ne_nil onSchedule.rows] at same inForce
  exact ⟨same.1 ▸ onSchedule.rows, same.1 ▸ onSchedule.ordered,
    init_versions_ne_nil hardfork hfVersions,
    .of_inForce onSchedule.synced.byHeight same
      (inForce onSchedule.synced.byHeight onSchedule.ordered onSchedule.synced.stored)
      onSchedule.synced.stored onSchedule.synced.fits,
    onSchedule.stored.of_sameTable same⟩

end

theorem init_nil (ordered : InOrder hardfork.heights) (byHeight : hardfork.placeholder.ByHeight) :
    (hardfork.init ∅ []).OnSchedule ∅ [] := by
  have same := init_sameTable hardfork ∅ []
  refine ⟨same.1 ▸ placeholder_heights_ne_nil hardfork,
    same.1 ▸ ordered.placeholder, fun ne => absurd rfl ne,
    .of_inForce byHeight same (init_inForce byHeight ordered (by simp)) (by simp) (by simp), ?_⟩
  intro height version found
  simp at found

end OnSchedule

theorem placeholder_byHeight (ordered : InOrder hardfork.heights)
    (unvoted : ∀ row ∈ hardfork.heights, row.threshold = 0)
    (first : ∀ row, hardfork.heights.head? = some row → row.version = hardfork.originalVersion) :
    hardfork.placeholder.ByHeight := by
  refine ⟨?_, ordered.placeholder.imp fun both => both.1, ?_⟩
  · intro row mem
    unfold placeholder at mem
    split at mem
    · rw [mem_singleton.mp mem]
    · exact unvoted row mem
  · rcases rows : hardfork.heights with _ | ⟨row, rest⟩
    · rw [placeholder, rows]
      rfl
    · rw [placeholder_of_ne_nil (by rw [rows]; exact cons_ne_nil _ _), entry, rows]
      exact first row (by rw [rows]; rfl)

end HardFork

def HardForkState.OnSchedule (state : HardForkState) : Prop :=
  ∃ hardfork : HardFork, state.object = hardfork.counted ∧
    hardfork.OnSchedule state.hfVersions state.blocks

theorem HardForkStep.onSchedule {before after : HardForkState}
    (step : HardForkStep before after) (onSchedule : before.OnSchedule) : after.OnSchedule := by
  obtain ⟨hardfork, object, onSchedule⟩ := onSchedule
  cases step with
  | add block =>
    have added := add_counted hardfork before.hfVersions block before.blocks.length
    unfold HardForkState.addBlock
    rw [object]
    split
    · rename_i checked
      refine ⟨_, congrArg Prod.fst added, ?_⟩
      rw [added]
      exact onSchedule.add checked
    · exact ⟨hardfork, object, onSchedule⟩
  | pop nblocks positive below =>
    have kept : before.remaining nblocks ≠ [] := by
      rw [← length_pos_iff, before.remaining_length]
      omega
    rw [← before.remaining_append] at onSchedule
    have voted := onSchedule.voted (append_ne_nil_of_left_ne_nil kept _)
    refine ⟨_, ?_, onSchedule.onBlockPopped kept nblocks⟩
    rw [HardForkState.popBlocks, object]
    exact onBlockPopped_counted _ _ _ _ voted
  | reorganizeBlock height =>
    have replayed := reorganizeFromBlockHeight_counted hardfork
      before.hfVersions before.blocks height
    unfold HardForkState.reorganizeFromBlockHeight
    rw [object, replayed]
    exact ⟨_, rfl, onSchedule.reorganizeFromBlockHeight height⟩
  | reorganizeChain height =>
    have replayed := reorganizeFromChainHeight_counted hardfork
      before.hfVersions before.blocks height
    unfold HardForkState.reorganizeFromChainHeight
    rw [object, replayed]
    exact ⟨_, rfl, onSchedule.reorganizeFromChainHeight height⟩
  | restart =>
    refine ⟨_, ?_, onSchedule.init⟩
    rw [HardForkState.restart, object, init_counted]
    rfl

theorem HardForkState.start_onSchedule {hardfork : HardFork}
    (ordered : HardFork.InOrder hardfork.heights)
    (unvoted : ∀ row ∈ hardfork.heights, row.threshold = 0)
    (first : ∀ row, hardfork.heights.head? = some row → row.version = hardfork.originalVersion)
    (lastVersions : Nat → Nat) :
    (HardForkState.start hardfork lastVersions).OnSchedule := by
  refine ⟨hardfork.init ∅ [], ?_, .init_nil ordered (placeholder_byHeight ordered unvoted first)⟩
  exact init_counted { hardfork with lastVersions := lastVersions } ∅ []

/-- Along every run the version in force is the scheduled one of the next height, and the stored
versions are the scheduled ones, one for every height of the chain. -/
theorem HardForkState.versions_eq_idealVersion
    {originalVersion originalVersionTillHeight windowSize : Nat}
    {rows : List HardForkEntry} {hardfork : HardFork}
    (accepted : (create originalVersion originalVersionTillHeight
      windowSize).addForks rows = some hardfork) (unvoted : ∀ row ∈ rows, row.threshold = 0)
    (first : ∀ row, rows.head? = some row → row.version = originalVersion)
    {lastVersions : Nat → Nat} {state : HardForkState}
    (run : Relation.ReflTransGen HardForkStep (HardForkState.start hardfork lastVersions) state) :
    state.object.getCurrentVersion = state.object.getIdealVersion state.blocks.length ∧
      (∀ height < state.blocks.length, (state.hfVersions.lookup height).isSome) ∧
      ∀ height version, state.hfVersions.lookup height = some version →
        version = state.object.getIdealVersion height := by
  obtain ⟨rfl, ordered⟩ := addForks_create accepted
  have onSchedule : state.OnSchedule := by
    induction run with
    | refl => exact HardForkState.start_onSchedule ordered unvoted first lastVersions
    | tail _ step ih => exact step.onSchedule ih
  obtain ⟨object, counted, scheduled⟩ := onSchedule
  have ideal := getIdealVersion_eq_versionAt scheduled.synced.byHeight
  rw [counted]
  refine ⟨?_, ?_, ?_⟩
  · exact scheduled.synced.inForce.getCurrentVersion.trans (ideal _).symm
  · intro height below
    rw [scheduled.synced.stored height below]
    rfl
  · intro height version found
    exact (scheduled.stored height version found).trans (ideal height).symm

theorem mainnet_versions_eq_idealVersion :
    let state :=
      (((HardForkState.start ⟨1, 1, 10080, mainnetHardForks, [], 0⟩
        fun _ => 0).addBlock (versionedBlock 1 0)).addBlock
        (versionedBlock 1 0)).popBlocks 1
    state.blocks = [versionedBlock 1 0] ∧
      state.object.getCurrentVersion = state.object.getIdealVersion 1 := by
  refine ⟨by decide +kernel, ?_⟩
  have run := ((Relation.ReflTransGen.single (HardForkStep.add
    (HardForkState.start ⟨1, 1, 10080, mainnetHardForks, [], 0⟩ fun _ => 0)
    (versionedBlock 1 0))).tail (.add _ (versionedBlock 1 0))).tail
      (.pop _ 1 (by decide) (by decide +kernel))
  have accepted : (create 1 1 10080).addForks mainnetHardForks =
      some ⟨1, 1, 10080, mainnetHardForks, [], 0⟩ := rfl
  have first : ∀ row, mainnetHardForks.head? = some row → row.version = 1 := by
    rintro row ⟨⟩
    rfl
  exact (HardForkState.versions_eq_idealVersion accepted (by decide) first run).1

/-- A table that starts with another version than the original one asks for its first row from the
genesis block on. -/
theorem otherFirstRow_versions_ne_idealVersion :
    let hardfork : HardFork := ⟨1, 0, 10080, [⟨2, 0, 0, 1⟩], [], 0⟩
    let state := (HardForkState.start hardfork fun _ => 0).addBlock (versionedBlock 2 2)
    (create 1 0 10080).addForks [⟨2, 0, 0, 1⟩] = some hardfork ∧
      state.blocks = [versionedBlock 2 2] ∧
      state.object.getCurrentVersion ≠ state.object.getIdealVersion 1 ∧
      state.hfVersions.lookup 0 ≠ some (state.object.getIdealVersion 0) := by
  refine ⟨rfl, by decide +kernel, by decide +kernel, by decide +kernel⟩

end LodeChain

import LodeChain.ListFacts
import LodeChain.Transaction
import Mathlib.Data.List.AList
import Mathlib.Data.List.GetD

/-!
# Hard forks

Adding the blocks of a chain without votes gives the last votes of the window, and an index that
never falls.
-/

namespace LodeChain

structure HardForkEntry where
  version : Nat
  height : Nat
  threshold : Nat
  time : Nat
  deriving DecidableEq, Repr

abbrev HfVersions := AList fun _ : Nat => Nat

structure HardFork where
  originalVersion : Nat
  originalVersionTillHeight : Nat
  windowSize : Nat
  heights : List HardForkEntry
  versions : List Nat
  currentForkIndex : Nat

def mainnetHardForks : List HardForkEntry :=
  [⟨1, 1, 0, 1341378000⟩, ⟨16, 2, 0, 1341378001⟩]

def getBlockVote (block : Block) : Nat :=
  if block.minorVersion = 0 then 1
  else block.minorVersion

namespace HardFork

variable (hardfork : HardFork)

def entry (index : Nat) : HardForkEntry :=
  hardfork.heights.getD index ⟨0, 0, 0, 0⟩

def create (originalVersion originalVersionTillHeight windowSize : Nat) : HardFork :=
  ⟨originalVersion, originalVersionTillHeight, windowSize, [], [], 0⟩

def addFork (row : HardForkEntry) : Option HardFork :=
  if row.version = 0 then none
  else if hardfork.heights.getLast?.any fun last =>
      row.version ≤ last.version || row.height ≤ last.height || row.time ≤ last.time then
    none
  else if 100 < row.threshold then none
  else some { hardfork with heights := hardfork.heights ++ [row] }

def addForks : HardFork → List HardForkEntry → Option HardFork
  | hardfork, [] => some hardfork
  | hardfork, row :: rest =>
    match hardfork.addFork row with
    | none => none
    | some added => addForks added rest

def getCurrentVersion : Nat :=
  (hardfork.entry hardfork.currentForkIndex).version

def votedForkIndexFrom (hardfork : HardFork) (height : Nat) : Nat → Nat → Nat
  | 0, _ => hardfork.currentForkIndex
  | count + 1, accumulatedVotes =>
    let row := hardfork.entry count
    let votes := (accumulatedVotes + hardfork.versions.count row.version) % 2 ^ 32
    let threshold := (hardfork.windowSize * row.threshold + 99) % 2 ^ 64 / 100 % 2 ^ 32
    if row.height ≤ height ∧ threshold ≤ votes then count
    else votedForkIndexFrom hardfork height count votes

def getVotedForkIndex (height : Nat) : Nat :=
  hardfork.votedForkIndexFrom height hardfork.heights.length 0

def checkAt (index : Nat) (block : Block) : Bool :=
  block.majorVersion == (hardfork.entry index).version &&
    decide ((hardfork.entry index).version ≤ getBlockVote block)

def check (block : Block) : Bool :=
  hardfork.checkAt hardfork.currentForkIndex block

def checkForHeight (block : Block) (height : Nat) : Bool :=
  hardfork.checkAt (hardfork.getVotedForkIndex height) block

def pushVote (vote : Nat) : HardFork :=
  { hardfork with
    versions := hardfork.versions.drop
        (hardfork.versions.length + 1 - hardfork.windowSize) ++ [vote] }

def raiseForkIndex (height : Nat) : HardFork :=
  { hardfork with
    currentForkIndex := max hardfork.currentForkIndex (hardfork.getVotedForkIndex height) }

variable (hfVersions : HfVersions)

def add (block : Block) (height : Nat) : HardFork × HfVersions :=
  if hardfork.check block then
    ((hardfork.pushVote (getBlockVote block)).raiseForkIndex (height + 1),
      hfVersions.insert height hardfork.getCurrentVersion)
  else (hardfork, hfVersions)

/-- The last row of the first `count + 1` that `height` has reached, or row zero. -/
def forkIndexForHeight (heights : List HardForkEntry) (height : Nat) : Nat → Nat
  | 0 => 0
  | count + 1 =>
    if (heights.getD (count + 1) ⟨0, 0, 0, 0⟩).height ≤ height then count + 1
    else forkIndexForHeight heights height count

def reachedForkIndex (heights : List HardForkEntry) (height : Nat) : Nat :=
  forkIndexForHeight heights height (heights.length - 1)

def getIdealVersion (height : Nat) : Nat :=
  let index := reachedForkIndex hardfork.heights height
  if index = 0 then hardfork.originalVersion
  else (hardfork.entry index).version

def popVotes (hardfork : HardFork) (hfVersions : HfVersions) (newChainHeight : Nat) : Nat → HardFork
  | 0 => hardfork
  | nblocks + 1 =>
    let version := (hfVersions.lookup (newChainHeight + nblocks)).getD 0
    popVotes { hardfork with versions := version :: hardfork.versions.dropLast }
      hfVersions newChainHeight nblocks

def onBlockPopped (newChainHeight nblocks : Nat) : HardFork :=
  { hardfork.popVotes hfVersions newChainHeight nblocks with
    currentForkIndex := reachedForkIndex hardfork.heights newChainHeight }

def lowerForkIndex (hardfork : HardFork) (startVersion : Nat) : Nat → Nat
  | 0 => 0
  | index + 1 =>
    if startVersion < (hardfork.entry (index + 1)).version then
      lowerForkIndex hardfork startVersion index
    else index + 1

def addAll (state : HardFork × HfVersions) (height : Nat) : List Block → HardFork × HfVersions
  | [] => state
  | block :: rest => addAll (state.1.add state.2 block height) (height + 1) rest

/-- The object `reorganize_from_block_height` starts its replay from. -/
def rescan (blocks : List Block) (height : Nat) : HardFork :=
  let rescanHeight := height - (hardfork.windowSize - 1)
  let startVersion := if height = 0 then hardfork.originalVersion
    else (hfVersions.lookup height).getD 0
  { hardfork with
    currentForkIndex := hardfork.lowerForkIndex startVersion hardfork.currentForkIndex
    versions := ((blocks.take (height + 1)).drop rescanHeight).map getBlockVote }

def reorganizeFromBlockHeight (blocks : List Block) (height : Nat) : HardFork × HfVersions :=
  if blocks.length ≤ height then (hardfork, hfVersions)
  else
    let rescanned := hardfork.rescan hfVersions blocks height
    addAll (rescanned.raiseForkIndex (height + 1), hfVersions) (height + 1)
      (blocks.drop (height + 1))

def reorganizeFromChainHeight (blocks : List Block) (height : Nat) : HardFork × HfVersions :=
  if height = 0 then (hardfork, hfVersions)
  else hardfork.reorganizeFromBlockHeight hfVersions blocks (height - 1)

def forkIndexOfVersion (version : Nat) : List HardForkEntry → Nat
  | row :: next :: rest =>
    if row.version = version then 0
    else forkIndexOfVersion version (next :: rest) + 1
  | _ => 0

def rescanFromBlockHeight (blocks : List Block) (height : Nat) : HardFork :=
  if blocks.length ≤ height then hardfork
  else
    let lastVersion := (hfVersions.lookup (blocks.length - 1)).getD 0
    raiseForkIndex { hardfork with
        versions := (blocks.drop height).map getBlockVote
        currentForkIndex := forkIndexOfVersion lastVersion hardfork.heights }
      blocks.length

def rescanFromChainHeight (blocks : List Block) (height : Nat) : HardFork :=
  if height = 0 then hardfork
  else hardfork.rescanFromBlockHeight hfVersions blocks (height - 1)

def placeholder : HardFork :=
  { hardfork with
    heights := if hardfork.heights.isEmpty then [⟨hardfork.originalVersion, 0, 0, 0⟩]
      else hardfork.heights }

def init (blocks : List Block) : HardFork :=
  let height := if hardfork.windowSize < blocks.length then
      blocks.length - (hardfork.windowSize - 1)
    else 1
  rescanFromChainHeight { hardfork.placeholder with
      versions := []
      currentForkIndex := 0 }
    hfVersions blocks height

/-! ## Hard forks without voting -/

open List Nat HardFork

structure ByHeight (hardfork : HardFork) : Prop where
  unvoted : ∀ row ∈ hardfork.heights, row.threshold = 0
  increasing : hardfork.heights.Pairwise fun earlier later =>
    earlier.version < later.version
  first : (hardfork.entry 0).version = hardfork.originalVersion

def InForce (hardfork : HardFork) (height : Nat) : Prop :=
  hardfork.currentForkIndex = reachedForkIndex hardfork.heights height

def versionAt (hardfork : HardFork) (height : Nat) : Nat :=
  (hardfork.entry (reachedForkIndex hardfork.heights height)).version

def fitsHeight (hardfork : HardFork) (height : Nat) (block : Block) : Bool :=
  hardfork.checkAt (reachedForkIndex hardfork.heights height) block

theorem forkIndexForHeight_le (heights : List HardForkEntry) (height count : Nat) :
    forkIndexForHeight heights height count ≤ count := by
  induction count with
  | zero => exact le_refl 0
  | succ count ih =>
    simp [forkIndexForHeight]
    split
    · exact le_refl _
    · exact le_succ_of_le ih

theorem reachedForkIndex_lt {heights : List HardForkEntry} (rows : heights ≠ []) (height : Nat) :
    reachedForkIndex heights height < heights.length :=
  lt_of_le_of_lt (forkIndexForHeight_le _ _ _) (sub_one_lt_of_lt (length_pos_of_ne_nil rows))

variable {height : Nat} {hardfork left right : HardFork} {hfVersions : HfVersions}
  {blocks : List Block}

theorem reachedForkIndex_mono (heights : List HardForkEntry)
    {later : Nat} (ordered : height ≤ later) :
    reachedForkIndex heights height ≤ reachedForkIndex heights later := by
  unfold reachedForkIndex
  induction heights.length - 1 with
  | zero => exact le_refl 0
  | succ count ih =>
    simp [forkIndexForHeight]
    split
    · rename_i reached
      rw [if_pos (reached.trans ordered)]
    · split
      · exact le_succ_of_le (forkIndexForHeight_le _ _ _)
      · exact ih

theorem getIdealVersion_eq_versionAt (byHeight : hardfork.ByHeight) (height : Nat) :
    hardfork.getIdealVersion height = hardfork.versionAt height := by
  unfold getIdealVersion versionAt
  dsimp only
  split
  · rename_i index
    rw [index, byHeight.first]
  · rfl

theorem InForce.getCurrentVersion (inForce : hardfork.InForce height) :
    hardfork.getCurrentVersion = hardfork.versionAt height := by
  rw [HardFork.getCurrentVersion, versionAt, inForce]

theorem InForce.check (inForce : hardfork.InForce height) (block : Block) :
    hardfork.check block = hardfork.fitsHeight height block := by
  rw [HardFork.check, fitsHeight, inForce]

theorem entry_threshold (byHeight : hardfork.ByHeight) (index : Nat) :
    (hardfork.entry index).threshold = 0 := by
  unfold entry
  rcases lt_or_ge index hardfork.heights.length with lt | outside
  · rw [getD_eq_getElem _ _ lt]
    exact byHeight.unvoted _ (getElem_mem lt)
  · rw [getD_eq_default _ _ outside]

theorem votedForkIndexFrom_cases (byHeight : hardfork.ByHeight) (height count votes : Nat) :
    hardfork.votedForkIndexFrom height (count + 1) votes =
        forkIndexForHeight hardfork.heights height count ∨
      (hardfork.votedForkIndexFrom height (count + 1) votes = hardfork.currentForkIndex ∧
        forkIndexForHeight hardfork.heights height count = 0) := by
  induction count generalizing votes with
  | zero =>
    simp only [votedForkIndexFrom, forkIndexForHeight]
    split
    · exact .inl rfl
    · exact .inr ⟨rfl, trivial⟩
  | succ count ih =>
    rw [votedForkIndexFrom, forkIndexForHeight]
    simp only [entry_threshold byHeight, mul_zero]
    by_cases reached : (hardfork.entry (count + 1)).height ≤ height
    · rw [if_pos ⟨reached, by simp⟩]
      exact .inl (if_pos reached).symm
    · rw [if_neg (fun both => reached both.1)]
      rw [show (if (hardfork.heights.getD (count + 1) ⟨0, 0, 0, 0⟩).height ≤
        height then count + 1 else
        forkIndexForHeight hardfork.heights height count) =
        forkIndexForHeight _ height count from if_neg reached]
      exact ih _

theorem getVotedForkIndex_cases (byHeight : hardfork.ByHeight) (height : Nat) :
    hardfork.getVotedForkIndex height = reachedForkIndex hardfork.heights height ∨
      (hardfork.getVotedForkIndex height = hardfork.currentForkIndex ∧
        reachedForkIndex hardfork.heights height = 0) := by
  unfold getVotedForkIndex reachedForkIndex
  rcases hardfork.heights.length with _ | count
  · exact .inr ⟨rfl, rfl⟩
  · exact votedForkIndexFrom_cases byHeight height count 0

theorem raiseForkIndex_inForce (byHeight : hardfork.ByHeight)
    (below : hardfork.currentForkIndex ≤ reachedForkIndex hardfork.heights height) :
    (hardfork.raiseForkIndex height).InForce height := by
  unfold InForce raiseForkIndex
  dsimp only
  rcases getVotedForkIndex_cases byHeight height with voted | ⟨voted, none⟩
  · rw [voted]
    omega
  · rw [voted]
    omega

def SameTable (left right : HardFork) : Prop :=
  left.heights = right.heights ∧ left.originalVersion = right.originalVersion

section

variable (same : left.SameTable right)

include same

theorem SameTable.entry (index : Nat) : left.entry index = right.entry index := by
  rw [HardFork.entry, HardFork.entry, same.1]

theorem SameTable.byHeight (byHeight : right.ByHeight) : left.ByHeight :=
  ⟨same.1 ▸ byHeight.unvoted, same.1 ▸ byHeight.increasing,
    by rw [same.entry, same.2, byHeight.first]⟩

theorem SameTable.versionAt (height : Nat) : left.versionAt height = right.versionAt height := by
  rw [HardFork.versionAt, HardFork.versionAt, same.entry, same.1]

theorem SameTable.fitsHeight (height : Nat) (block : Block) :
    left.fitsHeight height block = right.fitsHeight height block := by
  rw [HardFork.fitsHeight, HardFork.fitsHeight, checkAt, checkAt, same.entry, same.1]

end

theorem add_sameTable (hardfork : HardFork) (hfVersions : HfVersions)
    (block : Block) (height : Nat) :
    (hardfork.add hfVersions block height).1.SameTable hardfork := by
  unfold add
  split <;> exact ⟨rfl, rfl⟩

theorem addAll_sameTable (state : HardFork × HfVersions) (height : Nat) (blocks : List Block) :
    (addAll state height blocks).1.SameTable state.1 := by
  induction blocks generalizing state height with
  | nil => exact ⟨rfl, rfl⟩
  | cons block rest ih =>
    have first := add_sameTable state.1 state.2 block height
    have later := ih (state.1.add state.2 block height) (height + 1)
    exact ⟨later.1.trans first.1, later.2.trans first.2⟩

structure Synced (hardfork : HardFork) (hfVersions : HfVersions) (blocks : List Block) : Prop where
  byHeight : hardfork.ByHeight
  inForce : hardfork.InForce blocks.length
  stored : ∀ height < blocks.length, hfVersions.lookup height = some (hardfork.versionAt height)
  fits : ∀ height block, blocks[height]? = some block → hardfork.fitsHeight height block = true

theorem Synced.add {block : Block} (synced : hardfork.Synced hfVersions blocks)
    (checked : hardfork.check block = true) : (hardfork.add hfVersions block blocks.length).1.Synced
      (hardfork.add hfVersions block blocks.length).2 (blocks ++ [block]) := by
  have same := add_sameTable hardfork hfVersions block blocks.length
  refine ⟨same.byHeight synced.byHeight, ?_, ?_, ?_⟩
  · unfold HardFork.add
    rw [if_pos checked, length_append]
    refine raiseForkIndex_inForce ?_ ?_
    · have pushed : (hardfork.pushVote (getBlockVote block)).SameTable
          hardfork := ⟨rfl, rfl⟩
      exact pushed.byHeight synced.byHeight
    · exact synced.inForce.le.trans (reachedForkIndex_mono _ (le_succ _))
  · intro height below
    rw [same.versionAt]
    unfold HardFork.add
    rw [if_pos checked]
    by_cases top : height = blocks.length
    · rw [top, AList.lookup_insert, synced.inForce.getCurrentVersion]
    · rw [AList.lookup_insert_ne top]
      refine synced.stored height ?_
      rw [length_append, length_singleton] at below
      omega
  · intro height other found
    rw [same.fitsHeight]
    rw [getElem?_append] at found
    split at found
    · exact synced.fits height other found
    · rename_i above
      obtain ⟨lt, eq⟩ := List.getElem?_eq_some_iff.mp found
      rw [length_singleton] at lt
      have top : height = blocks.length := by omega
      simp at eq
      rw [← eq, top, ← synced.inForce.check]
      exact checked

def AcceptsAll (state : HardFork × HfVersions) (height : Nat) : List Block → Prop
  | [] => True
  | block :: rest =>
    state.1.check block = true ∧ AcceptsAll (state.1.add state.2 block height) (height + 1) rest

section

variable {state : HardFork × HfVersions} {done : List Block} (rest : List Block)
  (synced : state.1.Synced state.2 done)

include rest synced

theorem Synced.addAll (accepted : AcceptsAll state done.length rest) :
    (addAll state done.length rest).1.Synced (addAll state done.length rest).2 (done ++ rest) := by
  induction rest generalizing state done with
  | nil => simpa [addAll] using synced
  | cons block rest ih =>
    have later := ih (synced.add accepted.1) (by simpa using accepted.2)
    simpa [addAll] using later

theorem Synced.acceptsAll (fits : ∀ index block, rest[index]? = some block →
      state.1.fitsHeight (done.length + index) block = true) :
    AcceptsAll state done.length rest := by
  induction rest generalizing state done with
  | nil => trivial
  | cons block rest ih =>
    have checked : state.1.check block = true := by
      rw [synced.inForce.check]
      exact fits 0 block rfl
    have same := add_sameTable state.1 state.2 block done.length
    have later := ih (synced.add checked) (fun index other found => by
      rw [same.fitsHeight, length_append, length_singleton, add_assoc, add_comm 1]
      exact fits _ other (by simpa using found))
    exact ⟨checked, by simpa using later⟩

end

theorem popVotes_sameTable (hardfork : HardFork) (hfVersions : HfVersions)
    (newChainHeight nblocks : Nat) : (hardfork.popVotes hfVersions newChainHeight nblocks).SameTable
      hardfork := by
  induction nblocks generalizing hardfork with
  | zero => exact ⟨rfl, rfl⟩
  | succ nblocks ih => exact ih _

theorem Synced.onBlockPopped {popped : List Block}
    (synced : hardfork.Synced hfVersions (blocks ++ popped)) (nblocks : Nat) :
    (hardfork.onBlockPopped hfVersions blocks.length nblocks).Synced hfVersions blocks := by
  have same : (hardfork.onBlockPopped hfVersions blocks.length nblocks).SameTable
        hardfork := popVotes_sameTable hardfork hfVersions _ nblocks
  refine ⟨same.byHeight synced.byHeight, ?_, ?_, ?_⟩
  · exact congrArg (fun heights => reachedForkIndex heights _) same.1.symm
  · intro height below
    rw [same.versionAt]
    refine synced.stored height ?_
    rw [length_append]
    omega
  · intro height other found
    rw [same.fitsHeight]
    refine synced.fits height other ?_
    rw [List.getElem?_append_left (List.getElem?_eq_some_iff.mp found).choose, found]

theorem lowerForkIndex_le (byHeight : hardfork.ByHeight)
    {bound index : Nat} (lt : index ≤ hardfork.heights.length - 1)
    (boundInside : bound ≤ hardfork.heights.length - 1) :
    hardfork.lowerForkIndex (hardfork.entry bound).version index ≤ bound := by
  induction index with
  | zero => exact zero_le _
  | succ index ih =>
    simp [lowerForkIndex]
    split
    · exact ih (by omega)
    · rename_i reached
      by_contra above
      refine reached ?_
      have ordered := pairwise_iff_getElem.mp byHeight.increasing bound
        (index + 1) (by omega) (by omega) (by omega)
      rw [entry, entry, getD_eq_getElem _ _,
        getD_eq_getElem _ _]
      exact ordered

theorem Synced.raised {hardfork rescanned : HardFork} {hfVersions : HfVersions}
    {blocks : List Block} {height : Nat} (synced : hardfork.Synced hfVersions blocks)
    (same : rescanned.SameTable hardfork) (lt : height ≤ blocks.length)
    (below : rescanned.currentForkIndex ≤ reachedForkIndex hardfork.heights height) :
    (rescanned.raiseForkIndex height).Synced hfVersions (blocks.take height) := by
  have sameRaised : (rescanned.raiseForkIndex height).SameTable hardfork := same
  have taken : (blocks.take height).length = height := by
    rw [length_take]
    omega
  refine ⟨sameRaised.byHeight synced.byHeight, ?_, ?_, ?_⟩
  · rw [taken]
    exact raiseForkIndex_inForce (same.byHeight synced.byHeight) (same.1.symm ▸ below)
  · intro lower lowerBelow
    rw [sameRaised.versionAt]
    exact synced.stored lower (by omega)
  · intro lower block found
    rw [sameRaised.fitsHeight]
    rw [getElem?_take] at found
    split at found
    · exact synced.fits lower block found
    · simp at found

section

variable (synced : hardfork.Synced hfVersions blocks)

include synced

theorem Synced.rescan_le (lt : height < blocks.length) :
    (hardfork.rescan hfVersions blocks height).currentForkIndex ≤
      reachedForkIndex hardfork.heights (height + 1) := by
  have indexInside : hardfork.currentForkIndex ≤ hardfork.heights.length - 1 := by
    rw [synced.inForce]
    exact forkIndexForHeight_le _ _ _
  unfold rescan
  split
  · rw [← synced.byHeight.first]
    exact (lowerForkIndex_le synced.byHeight indexInside (zero_le _)).trans (zero_le _)
  · rw [synced.stored height lt]
    exact (lowerForkIndex_le synced.byHeight indexInside (forkIndexForHeight_le _ _ _)).trans
      (reachedForkIndex_mono _ (le_succ _))

theorem Synced.rescanned (lt : height < blocks.length) :
    let rescanned :=
      (hardfork.rescan hfVersions blocks height).raiseForkIndex (height + 1)
    rescanned.Synced hfVersions (blocks.take (height + 1)) ∧
      AcceptsAll (rescanned, hfVersions) (blocks.take (height + 1)).length
        (blocks.drop (height + 1)) := by
  have taken : (blocks.take (height + 1)).length = height + 1 := by
    rw [length_take]
    omega
  have rescanned := @Synced.raised hardfork
    (hardfork.rescan hfVersions blocks height) hfVersions blocks _
    synced ⟨rfl, rfl⟩ lt (synced.rescan_le lt)
  refine ⟨rescanned, Synced.acceptsAll _ rescanned ?_⟩
  intro index block found
  rw [getElem?_drop] at found
  rw [taken]
  exact synced.fits _ block found

theorem Synced.reorganizeFromBlockHeight (height : Nat) :
    (hardfork.reorganizeFromBlockHeight hfVersions blocks height).1.Synced
      (hardfork.reorganizeFromBlockHeight hfVersions blocks height).2 blocks := by
  unfold HardFork.reorganizeFromBlockHeight
  split
  · exact synced
  · rename_i lt
    have taken : (blocks.take (height + 1)).length = height + 1 := by
      rw [length_take]
      omega
    obtain ⟨rescanned, accepted⟩ := synced.rescanned (Nat.lt_of_not_le lt)
    have replayed := Synced.addAll _ rescanned accepted
    rwa [taken, take_append_drop] at replayed

theorem Synced.reorganizeFromChainHeight (height : Nat) :
    (hardfork.reorganizeFromChainHeight hfVersions blocks height).1.Synced
      (hardfork.reorganizeFromChainHeight hfVersions blocks height).2 blocks := by
  unfold HardFork.reorganizeFromChainHeight
  split
  · exact synced
  · exact synced.reorganizeFromBlockHeight _

end

theorem reorganizeFromBlockHeight_sameTable (hardfork : HardFork)
    (hfVersions : HfVersions) (blocks : List Block) (height : Nat) :
    (hardfork.reorganizeFromBlockHeight hfVersions blocks height).1.SameTable hardfork := by
  unfold reorganizeFromBlockHeight
  split
  · exact ⟨rfl, rfl⟩
  · exact addAll_sameTable _ _ _

theorem reorganizeFromChainHeight_sameTable (hardfork : HardFork)
    (hfVersions : HfVersions) (blocks : List Block) (height : Nat) :
    (hardfork.reorganizeFromChainHeight hfVersions blocks height).1.SameTable hardfork := by
  unfold reorganizeFromChainHeight
  split
  · exact ⟨rfl, rfl⟩
  · exact reorganizeFromBlockHeight_sameTable _ _ _ _

theorem mainnetHardForks_byHeight (table : hardfork.heights = mainnetHardForks)
    (original : hardfork.originalVersion = 1) : hardfork.ByHeight := by
  refine ⟨?_, ?_, ?_⟩
  · rw [table]
    decide
  · rw [table]
    decide
  · rw [original, entry, table]
    rfl

end HardFork

/-! ## The counters of votes -/

open WrappedArithmetic List HardFork

def tally (votes : List Nat) (version : Nat) : Nat :=
  votes.count version % 2 ^ 32

def countUp (lastVersions : Nat → Nat) (version : Nat) : Nat → Nat :=
  Function.update lastVersions version (addMod 32 (lastVersions version) 1)

def countDown (lastVersions : Nat → Nat) (version : Nat) : Nat → Nat :=
  Function.update lastVersions version (subMod 32 (lastVersions version) 1)

theorem countUp_tally (votes : List Nat) (version : Nat) :
    countUp (tally votes) version = tally (version :: votes) := by
  funext other
  by_cases same : other = version
  · rw [same, countUp, Function.update_self, tally, tally, addMod, count_cons_self, Nat.mod_add_mod]
  · rw [countUp, Function.update_of_ne same, tally, tally, count_cons_of_ne (Ne.symm same)]

theorem countDown_tally (votes : List Nat) (version : Nat) :
    countDown (tally (version :: votes)) version = tally votes := by
  funext other
  by_cases same : other = version
  · rw [same, countDown, Function.update_self, tally, tally, subMod,
      count_cons_self]
    omega
  · rw [countDown, Function.update_of_ne same, tally, tally, count_cons_of_ne (Ne.symm same)]

theorem tally_perm {votes others : List Nat} (perm : votes.Perm others) :
    tally votes = tally others := by
  funext version
  rw [tally, tally, perm.count_eq]

structure CountedHardFork extends HardFork where
  lastVersions : Nat → Nat

def HardFork.counted (hardfork : HardFork) : CountedHardFork :=
  { hardfork with lastVersions := tally hardfork.versions }

namespace CountedHardFork

def votedForkIndexFrom (object : CountedHardFork) (height : Nat) : Nat → Nat → Nat
  | 0, _ => object.currentForkIndex
  | count + 1, accumulatedVotes =>
    let row := object.entry count
    let votes := addMod 32 accumulatedVotes (object.lastVersions row.version)
    let threshold := (object.windowSize * row.threshold + 99) % 2 ^ 64 / 100 % 2 ^ 32
    if row.height ≤ height ∧ threshold ≤ votes then count
    else votedForkIndexFrom object height count votes

variable (object : CountedHardFork)

def getVotedForkIndex (height : Nat) : Nat :=
  object.votedForkIndexFrom height object.heights.length 0

def raiseForkIndex (height : Nat) : CountedHardFork :=
  { object with
    currentForkIndex := max object.currentForkIndex (object.getVotedForkIndex height) }

def dropVotes (windowSize : Nat) : List Nat → (Nat → Nat) → List Nat × (Nat → Nat)
  | [], lastVersions => ([], lastVersions)
  | oldVersion :: rest, lastVersions =>
    if windowSize ≤ rest.length + 1 then
      dropVotes windowSize rest (countDown lastVersions oldVersion)
    else (oldVersion :: rest, lastVersions)

def pushVote (vote : Nat) : CountedHardFork :=
  let kept := dropVotes object.windowSize object.versions object.lastVersions
  { object with
    versions := kept.1 ++ [vote]
    lastVersions := countUp kept.2 vote }

def add (hfVersions : HfVersions) (block : Block) (height : Nat) : CountedHardFork × HfVersions :=
  if object.check block then
    ((object.pushVote (getBlockVote block)).raiseForkIndex (height + 1),
      hfVersions.insert height object.getCurrentVersion)
  else (object, hfVersions)

def addAll (state : CountedHardFork × HfVersions) (height : Nat) :
    List Block → CountedHardFork × HfVersions
  | [] => state
  | block :: rest => addAll (state.1.add state.2 block height) (height + 1) rest

def popVotes (object : CountedHardFork) (hfVersions : HfVersions)
    (newChainHeight : Nat) : Nat → CountedHardFork
  | 0 => object
  | nblocks + 1 =>
    let back := object.versions.getLast?.getD 0
    let version := (hfVersions.lookup (newChainHeight + nblocks)).getD 0
    popVotes { object with
        versions := version :: object.versions.dropLast
        lastVersions := countUp (countDown object.lastVersions back) version }
      hfVersions newChainHeight nblocks

def onBlockPopped (hfVersions : HfVersions) (newChainHeight nblocks : Nat) : CountedHardFork :=
  { object.popVotes hfVersions newChainHeight nblocks with
    currentForkIndex := reachedForkIndex object.heights newChainHeight }

def clearVotes : CountedHardFork :=
  { object with
    versions := []
    lastVersions := fun _ => 0 }

def scanVotes (object : CountedHardFork) : List Block → CountedHardFork
  | [] => object
  | block :: rest =>
    scanVotes { object with
        versions := object.versions ++ [getBlockVote block]
        lastVersions := countUp object.lastVersions (getBlockVote block) }
      rest

def rescan (hfVersions : HfVersions) (blocks : List Block) (height : Nat) : CountedHardFork :=
  let rescanHeight := height - (object.windowSize - 1)
  let startVersion := if height = 0 then object.originalVersion
    else (hfVersions.lookup height).getD 0
  scanVotes { object.clearVotes with
      currentForkIndex := object.lowerForkIndex startVersion object.currentForkIndex }
    ((blocks.take (height + 1)).drop rescanHeight)

def reorganizeFromBlockHeight (hfVersions : HfVersions) (blocks : List Block) (height : Nat) :
    CountedHardFork × HfVersions :=
  if blocks.length ≤ height then (object, hfVersions)
  else
    let rescanned := object.rescan hfVersions blocks height
    addAll (rescanned.raiseForkIndex (height + 1), hfVersions) (height + 1)
      (blocks.drop (height + 1))

def reorganizeFromChainHeight (hfVersions : HfVersions) (blocks : List Block) (height : Nat) :
    CountedHardFork × HfVersions :=
  if height = 0 then (object, hfVersions)
  else object.reorganizeFromBlockHeight hfVersions blocks (height - 1)

def rescanFromBlockHeight (hfVersions : HfVersions)
    (blocks : List Block) (height : Nat) : CountedHardFork :=
  if blocks.length ≤ height then object
  else
    let lastVersion := (hfVersions.lookup (blocks.length - 1)).getD 0
    raiseForkIndex { object.clearVotes.scanVotes (blocks.drop height) with
        currentForkIndex := forkIndexOfVersion lastVersion object.heights }
      blocks.length

def rescanFromChainHeight (hfVersions : HfVersions)
    (blocks : List Block) (height : Nat) : CountedHardFork :=
  if height = 0 then object
  else object.rescanFromBlockHeight hfVersions blocks (height - 1)

def init (hfVersions : HfVersions) (blocks : List Block) : CountedHardFork :=
  let height := if object.windowSize < blocks.length then blocks.length - (object.windowSize - 1)
    else 1
  rescanFromChainHeight { object.clearVotes with
      heights := object.toHardFork.placeholder.heights
      currentForkIndex := 0 }
    hfVersions blocks height

end CountedHardFork

namespace HardFork

open CountedHardFork

variable (hardfork : HardFork)

theorem votedForkIndexFrom_counted (height count votes : Nat) :
    hardfork.counted.votedForkIndexFrom height count votes =
      hardfork.votedForkIndexFrom height count votes := by
  induction count generalizing votes with
  | zero => rfl
  | succ count ih =>
    have accumulated (version : Nat) : addMod 32 votes (tally hardfork.versions version) =
          (votes + hardfork.versions.count version) % 2 ^ 32 := by
      rw [addMod, tally, Nat.add_mod_mod]
    rw [votedForkIndexFrom, ← accumulated, ← ih]
    rfl

theorem raiseForkIndex_counted (height : Nat) :
    hardfork.counted.raiseForkIndex height = (hardfork.raiseForkIndex height).counted := by
  have voted : hardfork.counted.getVotedForkIndex height = hardfork.getVotedForkIndex height :=
    votedForkIndexFrom_counted hardfork height _ 0
  rw [CountedHardFork.raiseForkIndex, voted]
  rfl

theorem dropVotes_tally (windowSize : Nat) (votes : List Nat) :
    dropVotes windowSize votes (tally votes) = (votes.drop (votes.length + 1 - windowSize),
        tally (votes.drop (votes.length + 1 - windowSize))) := by
  induction votes with
  | nil =>
    rw [drop_nil]
    rfl
  | cons oldVersion rest ih =>
    rw [dropVotes]
    split
    · rename_i full
      have dropped : (oldVersion :: rest).length + 1 - windowSize =
          rest.length + 1 - windowSize + 1 := by
        rw [length_cons]
        omega
      rw [countDown_tally, ih, dropped, drop_succ_cons]
    · rename_i room
      have kept : (oldVersion :: rest).length + 1 - windowSize = 0 := by
        rw [length_cons]
        omega
      rw [kept, drop_zero]

theorem countUp_tally_append (votes : List Nat) (vote : Nat) :
    countUp (tally votes) vote = tally (votes ++ [vote]) := by
  rw [countUp_tally]
  exact tally_perm (perm_append_singleton vote votes).symm

theorem pushVote_counted (vote : Nat) :
    hardfork.counted.pushVote vote = (hardfork.pushVote vote).counted := by
  have kept : dropVotes hardfork.counted.windowSize hardfork.counted.versions
      hardfork.counted.lastVersions = _ :=
    dropVotes_tally _ _
  rw [CountedHardFork.pushVote, kept]
  rw [countUp_tally_append]
  rfl

theorem add_counted (hfVersions : HfVersions) (block : Block) (height : Nat) :
    hardfork.counted.add hfVersions block height =
      ((hardfork.add hfVersions block height).1.counted,
        (hardfork.add hfVersions block height).2) := by
  rw [CountedHardFork.add, add, pushVote_counted, raiseForkIndex_counted]
  change (if hardfork.check block then _ else _) = _
  split <;> rfl

theorem addAll_counted (state : HardFork × HfVersions) (height : Nat) (blocks : List Block) :
    CountedHardFork.addAll (state.1.counted, state.2) height blocks =
      ((addAll state height blocks).1.counted,
        (addAll state height blocks).2) := by
  induction blocks generalizing state height with
  | nil => rfl
  | cons block rest ih => rw [CountedHardFork.addAll, addAll, add_counted, ih]

theorem tally_turned {votes : List Nat} (ne : votes ≠ []) (version : Nat) :
    countUp (countDown (tally votes) (votes.getLast?.getD 0)) version =
      tally (version :: votes.dropLast) := by
  have split : tally votes = tally (votes.getLast ne :: votes.dropLast) := by
    refine tally_perm ?_
    nth_rewrite 1 [← dropLast_append_getLast ne]
    exact perm_append_singleton _ _
  rw [getLast?_eq_some_getLast ne, Option.getD_some, split, countDown_tally, countUp_tally]

theorem popVotes_counted (hfVersions : HfVersions) (newChainHeight : Nat)
    (nblocks : Nat) (ne : hardfork.versions ≠ []) :
    hardfork.counted.popVotes hfVersions newChainHeight nblocks =
      (hardfork.popVotes hfVersions newChainHeight nblocks).counted := by
  induction nblocks generalizing hardfork with
  | zero => rfl
  | succ nblocks ih =>
    rw [popVotes, ← ih _ (cons_ne_nil _ _)]
    change CountedHardFork.popVotes (CountedHardFork.mk _ (countUp (countDown
      (tally hardfork.versions) (hardfork.versions.getLast?.getD 0)) _))
      _ _ _ = _
    rw [tally_turned ne]
    rfl

theorem onBlockPopped_counted (hfVersions : HfVersions)
    (newChainHeight nblocks : Nat) (ne : hardfork.versions ≠ []) :
    hardfork.counted.onBlockPopped hfVersions newChainHeight nblocks =
      (hardfork.onBlockPopped hfVersions newChainHeight nblocks).counted := by
  rw [CountedHardFork.onBlockPopped, popVotes_counted _ _ _ _ ne]
  rfl

theorem scanVotes_counted (blocks : List Block) : hardfork.counted.scanVotes blocks =
      { hardfork with
        versions := hardfork.versions ++ blocks.map getBlockVote }.counted := by
  induction blocks generalizing hardfork with
  | nil =>
    rw [map_nil, append_nil]
    rfl
  | cons block rest ih =>
    have later := ih { hardfork with
      versions := hardfork.versions ++ [getBlockVote block] }
    change (CountedHardFork.mk _ (countUp (tally hardfork.versions)
      (getBlockVote block))).scanVotes rest = _
    rw [countUp_tally_append]
    refine later.trans ?_
    rw [append_assoc, singleton_append, map_cons]

section

variable (hfVersions : HfVersions)

include hfVersions

section

variable (blocks : List Block) (height : Nat)

theorem rescan_counted : hardfork.counted.rescan hfVersions blocks height =
      (hardfork.rescan hfVersions blocks height).counted :=
  scanVotes_counted { hardfork with
    versions := []
    currentForkIndex := _ } _

theorem reorganizeFromBlockHeight_counted :
    hardfork.counted.reorganizeFromBlockHeight hfVersions blocks height =
      ((hardfork.reorganizeFromBlockHeight hfVersions blocks height).1.counted,
        (hardfork.reorganizeFromBlockHeight hfVersions blocks height).2) := by
  rw [CountedHardFork.reorganizeFromBlockHeight, reorganizeFromBlockHeight, rescan_counted]
  split
  · rfl
  · dsimp only
    rw [raiseForkIndex_counted]
    exact addAll_counted (_, hfVersions) _ _

theorem reorganizeFromChainHeight_counted :
    hardfork.counted.reorganizeFromChainHeight hfVersions blocks height =
      ((hardfork.reorganizeFromChainHeight hfVersions blocks height).1.counted,
        (hardfork.reorganizeFromChainHeight hfVersions blocks height).2) := by
  rw [CountedHardFork.reorganizeFromChainHeight,
    reorganizeFromChainHeight, reorganizeFromBlockHeight_counted]
  split <;> rfl

theorem rescanFromBlockHeight_counted :
    hardfork.counted.rescanFromBlockHeight hfVersions blocks height =
      (hardfork.rescanFromBlockHeight hfVersions blocks height).counted := by
  have scanned := scanVotes_counted { hardfork with versions := [] } (blocks.drop height)
  rw [CountedHardFork.rescanFromBlockHeight, rescanFromBlockHeight]
  split
  · rfl
  · rw [← raiseForkIndex_counted]
    change CountedHardFork.raiseForkIndex
      { (counted { hardfork with versions := [] }).scanVotes (blocks.drop height) with
        currentForkIndex := _ } _ = _
    rw [scanned]
    rfl

theorem rescanFromChainHeight_counted :
    hardfork.counted.rescanFromChainHeight hfVersions blocks height =
      (hardfork.rescanFromChainHeight hfVersions blocks height).counted := by
  rw [CountedHardFork.rescanFromChainHeight, rescanFromChainHeight,
    rescanFromBlockHeight_counted]
  split <;> rfl

end

end

theorem init_counted (object : CountedHardFork) (hfVersions : HfVersions) (blocks : List Block) :
    object.init hfVersions blocks = (object.toHardFork.init hfVersions blocks).counted :=
  rescanFromChainHeight_counted { object.toHardFork.placeholder with
      versions := []
      currentForkIndex := 0 } hfVersions blocks _

/-! ## Tables in order -/

def InOrder (rows : List HardForkEntry) : Prop :=
  rows.Pairwise fun earlier later => earlier.version < later.version ∧ earlier.height < later.height

variable {hardfork : HardFork} {rows : List HardForkEntry}

variable {added : HardFork} {row : HardForkEntry}

theorem addFork_eq_some (accepted : hardfork.addFork row = some added) :
    added = { hardfork with heights := hardfork.heights ++ [row] } ∧
      ∀ last, hardfork.heights.getLast? = some last →
        last.version < row.version ∧ last.height < row.height := by
  unfold addFork at accepted
  split at accepted
  · cases accepted
  · split at accepted
    · cases accepted
    · rename_i above
      split at accepted
      · cases accepted
      · refine ⟨(Option.some.inj accepted).symm, ?_⟩
        intro last found
        rw [found] at above
        simp at above
        exact above.1

theorem InOrder.append_singleton (ordered : InOrder rows)
    (above : ∀ last, rows.getLast? = some last →
      last.version < row.version ∧ last.height < row.height) : InOrder (rows ++ [row]) := by
  rcases eq_nil_or_concat' rows with rfl | ⟨front, last, rfl⟩
  · exact pairwise_singleton _ _
  · have lastAbove := above last (by simp)
    refine pairwise_append.mpr ⟨ordered, pairwise_singleton _ _, ?_⟩
    intro prev mem later single
    rw [mem_singleton.mp single]
    rcases mem_append.mp mem with inFront | isLast
    · have below := (pairwise_append.mp ordered).2.2 prev inFront last (mem_singleton_self last)
      exact ⟨below.1.trans lastAbove.1, below.2.trans lastAbove.2⟩
    · rw [mem_singleton.mp isLast]
      exact lastAbove

theorem addForks_eq_some (accepted : hardfork.addForks rows = some added)
    (ordered : InOrder hardfork.heights) :
    added = { hardfork with heights := hardfork.heights ++ rows } ∧
      InOrder added.heights := by
  induction rows generalizing hardfork with
  | nil =>
    rw [addForks, Option.some.injEq] at accepted
    rw [← accepted, append_nil]
    exact ⟨rfl, ordered⟩
  | cons row rest ih =>
    rw [addForks] at accepted
    split at accepted
    · cases accepted
    · rename_i next found
      obtain ⟨rfl, above⟩ := addFork_eq_some found
      obtain ⟨eq, inOrder⟩ := ih accepted (ordered.append_singleton above)
      rw [append_assoc] at eq
      exact ⟨eq, inOrder⟩

theorem addForks_create {originalVersion originalVersionTillHeight windowSize : Nat}
    (accepted : (create originalVersion originalVersionTillHeight
      windowSize).addForks rows = some hardfork) :
    hardfork = ⟨originalVersion, originalVersionTillHeight, windowSize, rows,
      [], 0⟩ ∧ InOrder rows := by
  obtain ⟨rfl, ordered⟩ := addForks_eq_some accepted List.Pairwise.nil
  exact ⟨rfl, ordered⟩

theorem InOrder.placeholder (ordered : InOrder hardfork.heights) :
    InOrder hardfork.placeholder.heights := by
  unfold HardFork.placeholder
  split
  · exact pairwise_singleton _ _
  · exact ordered

theorem placeholder_heights_ne_nil (hardfork : HardFork) : hardfork.placeholder.heights ≠ [] := by
  unfold placeholder
  split
  · exact cons_ne_nil _ _
  · rename_i rows
    intro empty
    exact rows (by rw [empty]; rfl)

theorem placeholder_of_ne_nil (rows : hardfork.heights ≠ []) : hardfork.placeholder = hardfork := by
  unfold placeholder
  rw [if_neg (by simpa using rows)]

end HardFork

structure HardForkState where
  object : CountedHardFork
  hfVersions : HfVersions
  blocks : List Block

namespace HardForkState

def start (hardfork : HardFork) (lastVersions : Nat → Nat) : HardForkState :=
  ⟨CountedHardFork.init { hardfork with lastVersions := lastVersions } ∅ [], ∅, []⟩

variable (state : HardForkState)

def addBlock (block : Block) : HardForkState :=
  if state.object.check block then
    let added := state.object.add state.hfVersions block state.blocks.length
    ⟨added.1, added.2, state.blocks ++ [block]⟩
  else state

def remaining (nblocks : Nat) : List Block :=
  state.blocks.take (state.blocks.length - nblocks)

def popBlocks (nblocks : Nat) : HardForkState :=
  ⟨state.object.onBlockPopped state.hfVersions (state.remaining nblocks).length
    nblocks, state.hfVersions, state.remaining nblocks⟩

def reorganizeFromBlockHeight (state : HardForkState) (height : Nat) : HardForkState :=
  let replayed := state.object.reorganizeFromBlockHeight state.hfVersions state.blocks height
  ⟨replayed.1, replayed.2, state.blocks⟩

def reorganizeFromChainHeight (state : HardForkState) (height : Nat) : HardForkState :=
  let replayed := state.object.reorganizeFromChainHeight state.hfVersions state.blocks height
  ⟨replayed.1, replayed.2, state.blocks⟩

def restart : HardForkState :=
  { state with object := state.object.init state.hfVersions state.blocks }

theorem remaining_append (nblocks : Nat) :
    state.remaining nblocks ++ state.blocks.drop (state.blocks.length - nblocks) = state.blocks :=
  take_append_drop _ _

theorem remaining_length (nblocks : Nat) :
    (state.remaining nblocks).length = state.blocks.length - nblocks := by
  rw [remaining, List.length_take]
  omega

end HardForkState

inductive HardForkStep : HardForkState → HardForkState → Prop
  | add (state : HardForkState) (block : Block) : HardForkStep state (state.addBlock block)
  | pop (state : HardForkState) (nblocks : Nat) (positive : 0 < nblocks)
      (below : nblocks < state.blocks.length) :
      HardForkStep state (state.popBlocks nblocks)
  | reorganizeBlock (state : HardForkState) (height : Nat) :
      HardForkStep state (state.reorganizeFromBlockHeight height)
  | reorganizeChain (state : HardForkState) (height : Nat) :
      HardForkStep state (state.reorganizeFromChainHeight height)
  | restart (state : HardForkState) : HardForkStep state state.restart

def versionedBlock (version vote : Nat) : Block :=
  ⟨version, vote, 0, 0, 0, Transaction.setNull, []⟩

/-! ## Replaying a chain -/

namespace HardFork

variable (table : HardFork)

def fresh : HardFork :=
  { table with versions := [], currentForkIndex := 0 }

def replay (blocks : List Block) : HardFork :=
  (addAll (table.fresh, ∅) 0 blocks).1

theorem addAll_append (state : HardFork × HfVersions) (height : Nat) (blocks more : List Block) :
    addAll state height (blocks ++ more) =
      addAll (addAll state height blocks) (height + blocks.length) more := by
  induction blocks generalizing state height with
  | nil => rfl
  | cons block rest ih =>
    rw [cons_append, addAll, ih, addAll, length_cons, add_assoc, add_comm 1]

theorem replay_append_singleton (blocks : List Block)
    (block : Block) (hfVersions : HfVersions) : table.replay (blocks ++ [block]) =
      ((table.replay blocks).add hfVersions block blocks.length).1 := by
  have stored (versions : HfVersions) : ((table.replay blocks).add versions block blocks.length).1 =
        ((table.replay blocks).add hfVersions block blocks.length).1 := by
    unfold add
    split <;> rfl
  rw [replay, addAll_append, zero_add]
  exact stored _

def AcceptsChain : List Block → Prop :=
  ListFacts.EachAfter fun earlier block => (table.replay earlier).check block = true

variable {table left right : HardFork}

variable {blocks : List Block} {hardfork : HardFork} {index : Nat}

theorem replay_accepted {block : Block}
    (checked : (table.replay blocks).check block = true) : table.replay (blocks ++ [block]) =
      ((table.replay blocks).pushVote (getBlockVote block)).raiseForkIndex (blocks.length + 1) := by
  rw [table.replay_append_singleton blocks block ∅, add, if_pos checked]

theorem eq_of_fresh (same : left.fresh = right.fresh) (versions : left.versions = right.versions)
    (index : left.currentForkIndex = right.currentForkIndex) : left = right := by
  cases left
  cases right
  simp only [fresh, mk.injEq] at same
  simp
  exact ⟨same.1, same.2.1, same.2.2.1, same.2.2.2.1, versions, index⟩

theorem add_fresh (hardfork : HardFork) (hfVersions : HfVersions) (block : Block) (height : Nat) :
    (hardfork.add hfVersions block height).1.fresh = hardfork.fresh := by
  unfold add
  split <;> rfl

theorem replay_fresh (table : HardFork) (blocks : List Block) :
    (table.replay blocks).fresh = table.fresh := by
  induction blocks using List.reverseRecOn with
  | nil => rfl
  | append_singleton blocks block ih =>
    rw [table.replay_append_singleton blocks block ∅, add_fresh, ih]

theorem heights_of_fresh (same : left.fresh = right.fresh) : left.heights = right.heights :=
  (HardFork.mk.inj same).2.2.2.1

theorem windowSize_of_fresh (same : left.fresh = right.fresh) :
    left.windowSize = right.windowSize :=
  (HardFork.mk.inj same).2.2.1

theorem replay_versions (pos : 0 < table.windowSize) (accepted : table.AcceptsChain blocks) :
    (table.replay blocks).versions =
      (blocks.map getBlockVote).drop (blocks.length - table.windowSize) := by
  induction blocks using List.reverseRecOn with
  | nil => exact drop_nil.symm
  | append_singleton blocks block ih =>
    have checked := accepted blocks block [] rfl
    have dropped : blocks.length - table.windowSize +
        (blocks.length - (blocks.length - table.windowSize) + 1 -
          table.windowSize) = blocks.length + 1 - table.windowSize := by
      omega
    rw [replay_accepted checked]
    rw [pushVote, ih accepted.of_append,
      windowSize_of_fresh (replay_fresh table blocks), length_drop,
      length_map, drop_drop, dropped, map_append,
      length_append, length_singleton, drop_append_of_le_length]
    · rfl
    · rw [length_map]
      omega

theorem votedForkIndexFrom_lt {hardfork : HardFork} {bound : Nat}
    (current : hardfork.currentForkIndex < bound) (height : Nat) {count : Nat}
    (lt : count ≤ bound) (votes : Nat) :
    hardfork.votedForkIndexFrom height count votes < bound := by
  induction count generalizing votes with
  | zero => exact current
  | succ count ih =>
    rw [votedForkIndexFrom]
    split
    · exact lt
    · exact ih (by omega) _

theorem add_currentForkIndex_le (hardfork : HardFork) (hfVersions : HfVersions)
    (block : Block) (height : Nat) :
    hardfork.currentForkIndex ≤ (hardfork.add hfVersions block height).1.currentForkIndex := by
  unfold add
  split
  · exact le_max_left _ _
  · exact le_refl _

theorem add_currentForkIndex_lt (lt : hardfork.currentForkIndex < hardfork.heights.length)
    (hfVersions : HfVersions) (block : Block) (height : Nat) :
    (hardfork.add hfVersions block height).1.currentForkIndex < hardfork.heights.length := by
  unfold add
  split
  · exact Nat.max_lt.mpr ⟨lt, @votedForkIndexFrom_lt (hardfork.pushVote _) _ lt _ _ le_rfl _⟩
  · exact lt

theorem replay_currentForkIndex_lt (rows : table.heights ≠ []) (blocks : List Block) :
    (table.replay blocks).currentForkIndex < table.heights.length := by
  induction blocks using List.reverseRecOn with
  | nil => exact length_pos_of_ne_nil rows
  | append_singleton blocks block ih =>
    rw [table.replay_append_singleton blocks block ∅]
    rw [← heights_of_fresh (replay_fresh table blocks)] at ih ⊢
    exact add_currentForkIndex_lt ih _ _ _

theorem replay_currentForkIndex_le (table : HardFork) (blocks more : List Block) :
    (table.replay blocks).currentForkIndex ≤ (table.replay (blocks ++ more)).currentForkIndex := by
  induction more using List.reverseRecOn with
  | nil => rw [append_nil]
  | append_singleton more block ih =>
    rw [← append_assoc, table.replay_append_singleton _ block ∅]
    exact ih.trans (add_currentForkIndex_le _ _ _ _)

section Table

theorem entry_version_lt (ordered : InOrder table.heights) {low high : Nat}
    (below : low < high) (lt : high < table.heights.length) :
    (table.entry low).version < (table.entry high).version := by
  rw [entry, entry, getD_eq_getElem _ _ lt, getD_eq_getElem _ _ (below.trans lt)]
  exact (pairwise_iff_getElem.mp ordered low high _ lt below).1

theorem eq_of_entry_version_eq (ordered : InOrder table.heights) {first second : Nat}
    (firstInside : first < table.heights.length) (secondInside : second < table.heights.length)
    (same : (table.entry first).version = (table.entry second).version) : first = second := by
  rcases lt_trichotomy first second with below | eq | above
  · exact absurd same (entry_version_lt ordered below secondInside).ne
  · exact eq
  · exact absurd same (entry_version_lt ordered above firstInside).ne'

theorem lowerForkIndex_eq (ordered : InOrder table.heights) {row : Nat}
    (below : row ≤ index) (lt : index < table.heights.length) :
    table.lowerForkIndex (table.entry row).version index = row := by
  induction index with
  | zero => exact (Nat.le_zero.mp below).symm
  | succ index ih =>
    rw [lowerForkIndex]
    rcases eq_or_lt_of_le below with eq | lower
    · rw [eq, if_neg (lt_irrefl _)]
    · rw [if_pos (entry_version_lt ordered lower lt)]
      exact ih (by omega) (by omega)

theorem lowerForkIndex_eq_zero (ordered : InOrder table.heights) {start : Nat}
    (first : index ≠ 0 → start < (table.entry 1).version) (lt : index < table.heights.length) :
    table.lowerForkIndex start index = 0 := by
  induction index with
  | zero => rfl
  | succ index ih =>
    have second := first index.succ_ne_zero
    have above : start < (table.entry (index + 1)).version := by
      rcases Nat.eq_zero_or_pos index with rfl | pos
      · exact second
      · exact second.trans (entry_version_lt ordered (by omega) lt)
    rw [lowerForkIndex, if_pos above]
    exact ih (fun _ => second) (by omega)

theorem reorganizeFromBlockHeight_eq_replay {hfVersions : HfVersions} {last : Block}
    (same : hardfork.fresh = table.fresh) (pos : 0 < table.windowSize)
    (ordered : InOrder table.heights) (accepted : table.AcceptsChain (blocks ++ [last]))
    (below : (table.replay blocks).currentForkIndex ≤ hardfork.currentForkIndex)
    (lt : hardfork.currentForkIndex < table.heights.length)
    (stored : hfVersions.lookup blocks.length = some (table.replay blocks).getCurrentVersion)
    (start : blocks = [] → hardfork.currentForkIndex ≠ 0 →
      table.originalVersion < (table.entry 1).version) :
    hardfork.reorganizeFromBlockHeight hfVersions (blocks ++ [last])
      blocks.length = (table.replay (blocks ++ [last]), hfVersions) := by
  have heights := heights_of_fresh same
  have windowSize := windowSize_of_fresh same
  have original : hardfork.originalVersion = table.originalVersion := (HardFork.mk.inj same).1
  have checked := accepted blocks last [] rfl
  have rescanned : hardfork.rescan hfVersions (blocks ++ [last])
      blocks.length = (table.replay blocks).pushVote (getBlockVote last) := by
    refine eq_of_fresh ?_ ?_ ?_
    · exact same.trans (replay_fresh table blocks).symm
    · have pushed := replay_versions pos accepted
      rw [replay_accepted checked] at pushed
      refine Eq.trans ?_ pushed.symm
      change (((blocks ++ [last]).take (blocks.length + 1)).drop
        (blocks.length - (hardfork.windowSize - 1))).map getBlockVote = _
      have length : (blocks ++ [last]).length = blocks.length + 1 := by simp
      have scanned : blocks.length - (table.windowSize - 1) =
          blocks.length + 1 - table.windowSize := by omega
      rw [take_of_length_le length.le, map_drop, windowSize, length, scanned]
    · have inFork : hardfork.currentForkIndex < hardfork.heights.length := heights ▸ lt
      change hardfork.lowerForkIndex (if blocks.length = 0 then _ else _) _ =
        (table.replay blocks).currentForkIndex
      by_cases empty : blocks = []
      · rw [if_pos (by rw [empty]; rfl), original, lowerForkIndex_eq_zero
          (heights ▸ ordered) (fun later => by rw [entry, heights]; exact start empty later) inFork,
          empty]
        rfl
      · have version : (table.replay blocks).getCurrentVersion =
            (hardfork.entry (table.replay blocks).currentForkIndex).version := by
          rw [getCurrentVersion, entry, entry, heights,
            heights_of_fresh (replay_fresh table blocks)]
        rw [if_neg (fun zero => empty (eq_nil_of_length_eq_zero zero)),
          stored, version]
        exact lowerForkIndex_eq (heights ▸ ordered) below inFork
  rw [reorganizeFromBlockHeight, if_neg (by simp), rescanned, replay_accepted checked]
  rw [drop_eq_nil_of_le (by simp)]
  rfl

end Table

end HardFork

end LodeChain

import LodeChain.BlockQueue

/-!
# Requesting the blocks a peer has announced

A peer answers a request for its chain with the hashes of consecutive blocks. They are compared with
compiled-in hashes and become the objects to ask for.
-/

namespace LodeChain

open WrappedArithmetic

def blocksIdsSynchronizingMaxCount : Nat :=
  25000

def hashOfHashesStep : Nat :=
  512

def blockQueueNspansThreshold : Nat :=
  10

def blockQueueForceDownloadNearBlocks : Nat :=
  1000

inductive ConnectionState
  | beforeHandshake
  | synchronizing
  | standby
  | idle
  | normal
  deriving DecidableEq, Repr

inductive ExpectedResponse
  | nothing
  | getObjects
  | chainEntry
  deriving DecidableEq, Repr

inductive BlockPlace
  | mainChain
  | altChain
  | invalid
  deriving DecidableEq, Repr

structure ConnectionContext where
  connectionId : ConnectionId
  isIncome : Bool
  state : ConnectionState
  neededObjects : List (Hash × Nat)
  requestedObjects : Finset Hash
  remoteBlockchainHeight : Nat
  lastResponseHeight : Nat
  lastKnownHash : Hash
  pruningSeed : Nat
  expectHeight : Nat
  expectResponse : ExpectedResponse
  numRequested : Nat

/-! ## Hashes of hashes -/

open List Option Nat

namespace Prevalidation

/-- `m_blocks_hash_of_hashes` and `m_blocks_hash_check`, dropped once the chain has passed it. -/
structure HashTables where
  hashOfHashes : List (Hash × Hash)
  hashCheck : List (Hash × Nat)
  short : hashOfHashes.length < 2 ^ 32
  sized : hashCheck = [] ∨ hashCheck.length = hashOfHashes.length * hashOfHashesStep

/-- `cn_fast_hash` of a group of hashes and of a group of weights. -/
structure GroupHash where
  hashes : List Hash → Hash
  weights : List Nat → Hash

def enterGroup (weighted : Bool) :
    List (Hash × Nat) → Nat → List (Hash × Nat) → Option (Bool × List (Hash × Nat))
  | [], _, hashCheck => some (true, hashCheck)
  | (hash, weight) :: rest, i, hashCheck =>
    hashCheck[i]?.bind fun known => if known.1 ≠ nullHash ∧ known.1 ≠ hash then
        some (false, hashCheck)
      else if weighted ∧ known.2 ≠ 0 ∧ known.2 ≠ weight then
        some (false, hashCheck.set i (hash, known.2))
      else
        enterGroup weighted rest (i + 1)
          (hashCheck.set i (hash, if weighted then weight else known.2))

def readGroup (data : List (Hash × Nat)) (start : Nat) : Option (List (Hash × Nat)) :=
  if start + hashOfHashesStep ≤ data.length then some ((data.drop start).take hashOfHashesStep)
  else none

structure Offer where
  data : List (Hash × Nat)
  weighted : Bool
  size : Nat
  firstIndex : Nat

def Offer.matches (offer : Offer) (groupHash : GroupHash) (expected : Hash × Hash)
    (group : List (Hash × Nat)) : Bool :=
  groupHash.hashes (group.map Prod.fst) = expected.1 ∧
    (offer.weighted → groupHash.weights (group.map Prod.snd) = expected.2)

def checkGroups (groupHash : GroupHash) (hashOfHashes : List (Hash × Hash)) (offer : Offer) :
    Nat → Nat → Nat → List (Hash × Nat) → Option (Nat × List (Hash × Nat))
  | 0, _, usable, hashCheck => some (usable, hashCheck)
  | rounds + 1, n, usable, hashCheck =>
    match hashOfHashes[n]? with
    | some expected =>
      let start := (n - offer.firstIndex) * hashOfHashesStep
      if offer.data.length < start + hashOfHashesStep then some (usable, hashCheck)
      else
        (readGroup offer.data start).bind fun group =>
          if !offer.matches groupHash expected group then some (usable, hashCheck)
          else
            (enterGroup offer.weighted group (n * hashOfHashesStep) hashCheck).bind fun entered =>
              if !entered.1 then some (0, entered.2)
              else
                checkGroups groupHash hashOfHashes offer rounds (n + 1)
                  (addMod 64 usable hashOfHashesStep) entered.2
    | none =>
      let more := addMod 64 usable hashOfHashesStep
      checkGroups groupHash hashOfHashes offer rounds (n + 1)
        (if offer.size < more then offer.size else more) hashCheck

def TooFew (height count : Nat) : Prop :=
  height / hashOfHashesStep = (height + count - 1) / hashOfHashesStep ∧
    count < hashOfHashesStep ∧ (height + count) % hashOfHashesStep ≠ 0

instance (height count : Nat) : Decidable (TooFew height count) :=
  inferInstanceAs (Decidable (_ ∧ _))

/-- The hashes from the first group on, without the rest of a group the chain has not reached. -/
def collect (chain : List (Hash × Nat)) (height : Nat) (entries : List (Hash × Nat))
    (weighted : Bool) : Offer :=
  if chain.length < height ∧ height % hashOfHashesStep ≠ 0 then
    ⟨entries.drop (hashOfHashesStep - height % hashOfHashesStep), weighted, entries.length,
      height / hashOfHashesStep + 1⟩
  else
    ⟨(chain.take height).drop (height / hashOfHashesStep * hashOfHashesStep) ++ entries, weighted,
      entries.length, height / hashOfHashesStep⟩

/-- `prevalidate_block_hashes` on a chain given by the hash and the weight of each
block. -/
def prevalidateBlockHashes (groupHash : GroupHash) (tables : HashTables)
    (chain : List (Hash × Nat)) (height : Nat) (hashes : List Hash) (weights : List Nat) :
    Option (Nat × List (Hash × Nat)) :=
  if weights ≠ [] ∧ weights.length ≠ hashes.length then some (0, tables.hashCheck)
  else if tables.hashOfHashes.length * hashOfHashesStep ≤ height then
    some (hashes.length, tables.hashCheck)
  else if tables.hashCheck = [] then some (hashes.length, tables.hashCheck)
  else if TooFew height hashes.length then some (hashes.length, tables.hashCheck)
  else
    let weighted := weights ≠ []
    let entries := hashes.zip (if weighted then weights else hashes.map fun _ => 0)
    let offer := collect chain height entries weighted
    let lastIndex := (height + hashes.length - 1) / hashOfHashesStep
    (checkGroups groupHash tables.hashOfHashes offer (lastIndex + 1 - offer.firstIndex)
      offer.firstIndex (subMod 64 (offer.firstIndex * hashOfHashesStep) height)
      tables.hashCheck).map fun checked =>
        (if checked.1 < (2 ^ 64 - 1) / 2 then checked.1 else 0, checked.2)

/-! ## One group -/

variable {group data hashCheck : List (Hash × Nat)} {weighted : Bool}

theorem enterGroup_spec {i : Nat} (lt : i + group.length ≤ hashCheck.length) :
    ∃ done after, enterGroup weighted group i hashCheck = some (done, after) ∧
      after.length = hashCheck.length ∧ (done = true → ∀ position, after[position]?.map Prod.fst =
        if i ≤ position ∧ position < i + group.length then group[position - i]?.map Prod.fst
        else hashCheck[position]?.map Prod.fst) := by
  induction group generalizing i hashCheck with
  | nil =>
    refine ⟨true, hashCheck, rfl, rfl, ?_⟩
    intro _ position
    rw [if_neg (by rw [length_nil]; omega)]
  | cons first group ih =>
    obtain ⟨hash, weight⟩ := first
    rw [length_cons] at lt
    have present : i < hashCheck.length := by omega
    rw [enterGroup, getElem?_eq_getElem present, bind_some]
    split
    · exact ⟨false, _, rfl, rfl, by simp⟩
    split
    · exact ⟨false, _, rfl, length_set, by simp⟩
    · generalize (if weighted = true then weight else hashCheck[i].2) = stored
      obtain ⟨done, after, entered, length, filled⟩ :=
        @ih (hashCheck.set i (hash, stored)) (i + 1) (by rw [length_set]; omega)
      refine ⟨done, after, entered, length.trans length_set, ?_⟩
      intro all position
      rw [filled all, length_cons]
      rcases lt_trichotomy i position with later | rfl | before
      · rw [getElem?_set_ne (by omega), show position - i = position - (i + 1) + 1 by omega,
          getElem?_cons_succ]
        by_cases inGroup : position < i + 1 + group.length
        · rw [if_pos ⟨later, inGroup⟩, if_pos ⟨by omega, by omega⟩]
        · rw [if_neg (by omega), if_neg (by omega)]
      · rw [if_neg (by omega), getElem?_set_self present, if_pos ⟨le_rfl, by omega⟩,
          Nat.sub_self]
        rfl
      · rw [getElem?_set_ne (by omega), if_neg (by omega), if_neg (by omega)]

/-! ## All groups -/

/-- Before the group `n` the hashes up to it are entered and the usable hashes end there, unless
none is reached yet. -/
structure Progress (tables : HashTables) (offer : Offer) (height n usable : Nat)
    (hashCheck : List (Hash × Nat)) : Prop where
  length : hashCheck.length = tables.hashOfHashes.length * hashOfHashesStep
  begun : offer.firstIndex ≤ n
  counted : usable ≤ offer.size ∧ usable + height ≤ n * hashOfHashesStep ∨
    n = offer.firstIndex ∧ usable + height = 2 ^ 64 + n * hashOfHashesStep ∧
      n * hashOfHashesStep < height
  entered : ∀ position, offer.firstIndex * hashOfHashesStep ≤ position →
    position < n * hashOfHashesStep → position < hashCheck.length →
      hashCheck[position]?.map Prod.fst =
        offer.data[position - offer.firstIndex * hashOfHashesStep]?.map Prod.fst

variable {tables : HashTables} {offer : Offer} {groupHash : GroupHash}
  {height n usable rounds : Nat}

section Progress

variable (progress : Progress tables offer height n usable hashCheck)
  (low : height ≤ offer.firstIndex * hashOfHashesStep + hashOfHashesStep)

include progress low

theorem Progress.enter
    (sized : offer.data.length = offer.size + height - offer.firstIndex * hashOfHashesStep)
    (full : (n - offer.firstIndex) * hashOfHashesStep + hashOfHashesStep ≤ offer.data.length)
    {after : List (Hash × Nat)} (length : after.length = hashCheck.length)
    (filled : ∀ position, after[position]?.map Prod.fst =
      if n * hashOfHashesStep ≤ position ∧ position < n * hashOfHashesStep + hashOfHashesStep then
        offer.data[position - offer.firstIndex * hashOfHashesStep]?.map Prod.fst
      else hashCheck[position]?.map Prod.fst) :
    Progress tables offer height (n + 1) (addMod 64 usable hashOfHashesStep) after := by
  obtain ⟨tableLength, begun, counted, entered⟩ := progress
  refine ⟨length.trans tableLength, by omega, .inl ?_, ?_⟩
  · unfold addMod hashOfHashesStep at *
    omega
  · intro position first below lt
    rw [filled]
    split_ifs with inGroup
    · rfl
    · rw [add_mul] at below
      exact entered position first (by omega) (length ▸ lt)

theorem Progress.pass (beyond : tables.hashOfHashes.length ≤ n)
    (reached : height < tables.hashOfHashes.length * hashOfHashesStep) :
    Progress tables offer height (n + 1)
      (if offer.size < addMod 64 usable hashOfHashesStep then offer.size
        else addMod 64 usable hashOfHashesStep) hashCheck := by
  obtain ⟨tableLength, begun, counted, entered⟩ := progress
  refine ⟨tableLength, by omega, .inl ?_, ?_⟩
  · unfold addMod hashOfHashesStep at *
    split_ifs
    all_goals omega
  · intro position first below lt
    refine entered position first ?_ lt
    rw [tableLength] at lt
    exact lt.trans_le (mul_le_mul_right _ beyond)

theorem Progress.checkGroups (groupHash : GroupHash) (rounds : Nat)
    (sized : offer.data.length = offer.size + height - offer.firstIndex * hashOfHashesStep)
    (reached : height < tables.hashOfHashes.length * hashOfHashesStep) :
    ∃ counted after, checkGroups groupHash tables.hashOfHashes offer rounds n usable hashCheck =
        some (counted, after) ∧
      (counted = 0 ∨ ∃ last, Progress tables offer height last counted after) := by
  induction rounds generalizing n usable hashCheck with
  | zero => exact ⟨_, _, rfl, .inr ⟨n, progress⟩⟩
  | succ rounds ih =>
    rw [Prevalidation.checkGroups]
    split
    · rename_i expected found
      obtain ⟨listed, -⟩ := List.getElem?_eq_some_iff.mp found
      dsimp only
      split
      · exact ⟨_, _, rfl, .inr ⟨n, progress⟩⟩
      rename_i notFull
      have full := Nat.le_of_not_lt notFull
      rw [readGroup, if_pos full, bind_some]
      generalize shape : (offer.data.drop ((n - offer.firstIndex) * hashOfHashesStep)).take
        hashOfHashesStep = group
      have size : group.length = hashOfHashesStep := by
        rw [← shape, length_take, length_drop]
        omega
      split
      · exact ⟨_, _, rfl, .inr ⟨n, progress⟩⟩
      obtain ⟨done, after, entered, length, filled⟩ := @enterGroup_spec group hashCheck
        _ _ (by
          rw [progress.length, size, ← succ_mul]
          exact mul_le_mul_right _ listed)
      rw [entered]
      rcases done with _ | _
      · exact ⟨_, _, rfl, .inl rfl⟩
      · refine ih (progress.enter low sized full length ?_)
        intro position
        rw [filled rfl, size]
        split_ifs with inGroup
        · have begun := mul_le_mul_right hashOfHashesStep progress.begun
          rw [← shape, getElem?_take_of_lt (by omega), getElem?_drop, Nat.sub_mul]
          congr 2
          omega
        · rfl
    · rename_i missing
      exact ih (progress.pass low (getElem?_eq_none_iff.mp missing) reached)

end Progress

/-! ## The collected hashes -/

section Collected

variable {chain entries : List (Hash × Nat)}
  (collected : collect chain height entries weighted = offer)

include collected

theorem collect_size : offer.size = entries.length := by
  rw [← collected, collect]
  split_ifs <;> rfl

theorem collect_low : height ≤ offer.firstIndex * hashOfHashesStep + hashOfHashesStep := by
  rw [← collected]
  unfold collect hashOfHashesStep
  split_ifs
  all_goals dsimp only; omega

theorem collect_length :
    offer.data.length = offer.size + height - offer.firstIndex * hashOfHashesStep := by
  rw [← collected]
  unfold collect hashOfHashesStep
  split_ifs with skips
  all_goals
    simp
    omega

theorem collect_getElem? {j : Nat} (begun : offer.firstIndex * hashOfHashesStep ≤ height + j) :
    offer.data[height + j - offer.firstIndex * hashOfHashesStep]? = entries[j]? := by
  rw [← collected] at begun ⊢
  unfold collect hashOfHashesStep at *
  split_ifs at begun ⊢ with skips
  · rw [getElem?_drop]
    congr 1
    dsimp only at begun ⊢
    omega
  · dsimp only at begun ⊢
    rw [getElem?_append_right, length_drop, length_take]
    · congr 1
      omega
    · rw [length_drop, length_take]
      omega

theorem collect_skips {j : Nat} (before : ¬offer.firstIndex * hashOfHashesStep ≤ height + j) :
    chain.length < height ∧
      height + j < (height + hashOfHashesStep - 1) / hashOfHashesStep * hashOfHashesStep := by
  rw [← collected] at before
  unfold collect hashOfHashesStep at *
  split_ifs at before with skips
  all_goals dsimp only at before; omega

theorem collect_progress (kept : tables.hashCheck ≠ [])
    (reached : height < tables.hashOfHashes.length * hashOfHashesStep)
    (enough : ¬TooFew height entries.length) : Progress tables offer height offer.firstIndex
      (subMod 64 (offer.firstIndex * hashOfHashesStep) height) tables.hashCheck := by
  have short := tables.short
  refine ⟨tables.sized.resolve_left kept, le_rfl, ?_, fun position first below => by omega⟩
  have bounded : height < 2 ^ 64 := by
    rw [hashOfHashesStep] at reached
    omega
  unfold TooFew at enough
  rw [← collected]
  unfold collect hashOfHashesStep at *
  split_ifs with skips
  · left
    dsimp only
    rw [subMod_of_le (by omega) (by omega)]
    omega
  · dsimp only
    rcases lt_or_ge (height / 512 * 512) height with lt | aligned
    · rw [subMod_of_lt bounded lt]
      omega
    · rw [subMod_of_le (by omega) aligned]
      omega

end Collected

/-- No access is out of bounds and at most all hashes are usable. None is, or the call has returned
without a look at the groups, or the loop over the groups has ended. -/
theorem prevalidateBlockHashes_cases (groupHash : GroupHash) (tables : HashTables)
    (chain : List (Hash × Nat)) (height : Nat) (hashes : List Hash) (weights : List Nat) :
    ∃ u hashCheck, prevalidateBlockHashes groupHash tables chain height hashes weights =
        some (u, hashCheck) ∧ u ≤ hashes.length ∧
      (u = 0 ∨ hashCheck.length ≤ height ∨ TooFew height hashes.length ∨
        ∃ entries offer last, entries.map Prod.fst = hashes ∧
          collect chain height entries (weights ≠ []) = offer ∧
          u + height ≤ last * hashOfHashesStep ∧
          Progress tables offer height last u hashCheck) := by
  unfold prevalidateBlockHashes
  split
  · exact ⟨0, _, rfl, Nat.zero_le _, .inl rfl⟩
  rename_i weighed
  split
  · rename_i passed
    refine ⟨_, _, rfl, le_rfl, .inr (.inl ?_)⟩
    rcases tables.sized with empty | sized
    · simp [empty]
    · omega
  rename_i before
  split
  · rename_i dropped
    exact ⟨_, _, rfl, le_rfl, .inr (.inl (by simp [dropped]))⟩
  rename_i kept
  split
  · rename_i few
    exact ⟨_, _, rfl, le_rfl, .inr (.inr (.inl few))⟩
  rename_i enough
  dsimp only
  generalize listed : hashes.zip (if weights ≠ [] then weights else hashes.map fun _ => 0) = entries
  have spelled : entries.map Prod.fst = hashes := by
    rw [← listed]
    refine map_fst_zip ?_
    split_ifs with some_
    · have := not_and.mp weighed some_
      omega
    · rw [length_map]
  have count : entries.length = hashes.length := by rw [← spelled, length_map]
  have reached := Nat.lt_of_not_le before
  generalize collected : collect chain height entries (weights ≠ []) = offer
  have low := collect_low collected
  have started := collect_progress collected kept reached (count ▸ enough)
  obtain ⟨counted, after, run, ended⟩ := started.checkGroups low groupHash _
    (collect_length collected) reached
  rw [run, Option.map_some]
  refine ⟨_, _, rfl, ?_⟩
  rcases ended with rfl | ⟨last, progress⟩
  · exact ⟨zero_le _, .inl rfl⟩
  have counts := progress.counted
  have begun := mul_le_mul_right hashOfHashesStep progress.begun
  split_ifs with positive
  · have usable : counted ≤ hashes.length ∧ counted + height ≤ last * hashOfHashesStep := by
      rw [collect_size collected, count] at counts
      unfold hashOfHashesStep at *
      omega
    exact ⟨usable.1, .inr (.inr (.inr ⟨entries, offer, last, spelled, collected, usable.2,
      progress⟩))⟩
  · exact ⟨zero_le _, .inl rfl⟩

/-- No access is out of bounds, at most all hashes are usable, and unless there were too few, the
covered usable ones are entered, apart from the rest of an unreached group. -/
theorem prevalidateBlockHashes_spec (groupHash : GroupHash) (tables : HashTables)
    (chain : List (Hash × Nat)) (height : Nat) (hashes : List Hash) (weights : List Nat) :
    ∃ u hashCheck, prevalidateBlockHashes groupHash tables chain height hashes weights =
        some (u, hashCheck) ∧ u ≤ hashes.length ∧
      (¬TooFew height hashes.length → ∀ j < u, height + j < hashCheck.length →
        hashCheck[height + j]?.map Prod.fst = hashes[j]? ∨ chain.length < height ∧
          height + j < (height + hashOfHashesStep - 1) / hashOfHashesStep * hashOfHashesStep) := by
  obtain ⟨u, hashCheck, run, bounded, ended⟩ :=
    prevalidateBlockHashes_cases groupHash tables chain height hashes weights
  refine ⟨u, hashCheck, run, bounded, fun enough j within inside => ?_⟩
  rcases ended with
    rfl | passed | few | ⟨entries, offer, last, spelled, collected, usable, progress⟩
  · exact absurd within (not_lt_zero j)
  · omega
  · exact absurd few enough
  · by_cases grouped : offer.firstIndex * hashOfHashesStep ≤ height + j
    · left
      rw [progress.entered _ grouped (by omega) inside, collect_getElem? collected grouped,
        ← getElem?_map, spelled]
    · exact .inr (collect_skips collected grouped)

def emptyTables : HashTables where
  hashOfHashes := [(512, 0)]
  hashCheck := replicate 512 (0, 0)
  short := by decide
  sized := .inr length_replicate

def sampleGroupHash : GroupHash where
  hashes := fun group => group.length
  weights := fun _ => 0

/-- A single hash is usable although nothing is entered for it. -/
theorem emptyTables_too_few : prevalidateBlockHashes sampleGroupHash emptyTables [] 0 [7] [] =
        some (1, emptyTables.hashCheck) ∧ emptyTables.hashCheck[0]?.map Prod.fst = some nullHash ∧
      ¬([] : List (Hash × Nat)).length < 0 := by
  have length : emptyTables.hashCheck.length = 512 := length_replicate
  have kept : emptyTables.hashCheck ≠ [] := ne_nil_of_length_pos (length ▸ succ_pos 511)
  refine ⟨?_, ?_, by decide⟩
  · rw [prevalidateBlockHashes, if_neg (by decide), if_neg (by decide), if_neg kept,
      if_pos (by decide)]
    rfl
  · rw [emptyTables, getElem?_replicate_of_lt (by decide)]
    rfl

end Prevalidation

structure Surroundings where
  haveBlock : Hash → Option BlockPlace
  blockIdByHeight : Nat → Hash
  groupHash : Prevalidation.GroupHash
  hashTables : Prevalidation.HashTables
  mainChain : List (Hash × Nat)
  currentBlockchainHeight : Nat
  targetBlockchainHeight : Nat
  blockchainPruningSeed : Nat
  blockSyncSize : Nat
  bpForkHeight : Nat
  shortChainHistory : List Hash
  syncPrunedBlocks : Bool
  liveConnections : List ConnectionId
  queueDataSize : Nat
  blockQueueSizeThreshold : Nat
  shouldDropConnection : Bool
  shouldDownloadNextSpan : Bool
  shouldAskForPrunedData : Nat × Nat → Bool
  syncLockFree : Bool
  additionWedged : Bool

structure ChainEntry where
  startHeight : Nat
  totalHeight : Nat
  blockIds : List Hash
  blockWeights : List Nat

namespace ConnectionContext

variable {Entry : Type} (around : Surroundings) (context : ConnectionContext)

def firstNeededHeight : Nat :=
  addMod 64 (subMod 64 context.lastResponseHeight context.neededObjects.length) 1

def nextBlockHeight (nextNeededHeight : Nat) : Nat :=
  if context.neededObjects.isEmpty then nextNeededHeight
  else context.firstNeededHeight

variable (queue : BlockQueue Entry)

def skipUnneededHashes (checkBlockQueue : Bool) : Nat × ConnectionContext :=
  let skipped := context.neededObjects.takeWhile fun object => (around.haveBlock object.1).isSome ||
      (checkBlockQueue && decide (object.1 ∈ queue.haveBlocks))
  (skipped.length, { context with
      lastKnownHash := if skipped.length = context.neededObjects.length then
          (skipped.getLast?.map Prod.fst).getD context.lastKnownHash
        else context.lastKnownHash
      neededObjects := context.neededObjects.drop skipped.length })

def nothingLeft (skipped : Nat × ConnectionContext) : Bool :=
  decide (skipped.1 ≠ 0) && skipped.2.neededObjects.isEmpty && decide (skipped.2.numRequested = 0)

def settleNothingLeft : Option ConnectionContext :=
  if queue.getNextNeededHeight around.currentBlockchainHeight < context.remoteBlockchainHeight then
    none
  else some { context with state := .normal }

/-- A result, or that the request goes on, perhaps for the next span. -/
inductive Decision
  | result (context : Option ConnectionContext)
  | proceed (context : ConnectionContext) (forceNextSpan : Bool)

def stripeProceedMain (nextBlockHeight nextNeededHeight : Nat) : Bool :=
  let bcHeight := around.currentBlockchainHeight
  let addStripe := getPruningStripeAt bcHeight context.remoteBlockchainHeight
    cryptonotePruningLogStripes
  let peerStripe := getPruningStripe context.pruningSeed
  let localStripe := getPruningStripe around.blockchainPruningSeed
  let near := addMod 64 bcHeight blockQueueForceDownloadNearBlocks
  ((around.syncPrunedBlocks && localStripe != 0 && addStripe != localStripe) ||
      addStripe == 0 || peerStripe == 0 || addStripe == peerStripe) &&
    (decide (nextBlockHeight < near) || decide (nextNeededHeight < near))

def decideRequest : Decision :=
  let skipped := context.skipUnneededHashes around queue true
  if nothingLeft skipped then .result (skipped.2.settleNothingLeft around queue)
  else
    let context := skipped.2
    let bcHeight := around.currentBlockchainHeight
    let nextNeededHeight := queue.getNextNeededHeight bcHeight
    let nextBlockHeight := context.nextBlockHeight nextNeededHeight
    let queueProceed := decide (queue.getNumFilledSpans < blockQueueNspansThreshold) ||
        decide (around.queueDataSize < around.blockQueueSizeThreshold)
    let main := context.stripeProceedMain around nextBlockHeight nextNeededHeight
    let secondary := hasUnprunedBlock nextBlockHeight
      context.remoteBlockchainHeight context.pruningSeed
    if !main && !secondary && around.shouldDropConnection then .result none
    else if main && around.shouldDownloadNextSpan then
      .proceed { context with state := .synchronizing } true
    else if main || (queueProceed && secondary) then
      .proceed { context with state := .synchronizing } false
    else if around.syncLockFree && queue.hasNextSpanFilled bcHeight then
      .result (some { context with state := .standby })
    else if around.syncLockFree && !context.isIncome && around.additionWedged then .result none
    else .result (some { context with state := .standby })

/-- The answer is expected next, unless the peer lacks what is needed. -/
def sendRequest (span : Nat × Nat) (blocks : List Hash) : Option ConnectionContext :=
  let stripeAt := fun height => getPruningStripeAt height
    context.remoteBlockchainHeight cryptonotePruningLogStripes
  let peerStripe := getPruningStripe context.pruningSeed
  let firstStripe := stripeAt span.1
  let lastStripe := stripeAt (subMod 64 (addMod 64 span.1 span.2) 1)
  if !around.shouldAskForPrunedData span && context.pruningSeed != 0 &&
      ((firstStripe != 0 && peerStripe != firstStripe) ||
        (lastStripe != 0 && peerStripe != lastStripe)) &&
      !around.syncPrunedBlocks then
    none
  else
    some { context with
      requestedObjects := context.requestedObjects ∪ blocks.toFinset
      expectHeight := span.1
      expectResponse := .getObjects
      numRequested := addMod 64 context.numRequested blocks.length }

def spanRequest : SpanRequest where
  firstBlockHeight := context.firstNeededHeight
  lastBlockHeight := context.lastResponseHeight
  maxBlocks := around.blockSyncSize
  connectionId := context.connectionId
  syncPrunedBlocks := around.syncPrunedBlocks &&
    decide (around.bpForkHeight ≤ context.firstNeededHeight) &&
    around.blockchainPruningSeed != 0
  localPruningSeed := around.blockchainPruningSeed
  pruningSeed := context.pruningSeed
  blockchainHeight := context.remoteBlockchainHeight
  blockHashes := context.neededObjects

def requestReserved (span : Nat × Nat) : Option ConnectionContext :=
  let skip := subMod 64 span.1 context.firstNeededHeight
  if context.neededObjects.length < skip then none
  else
    let needed := context.neededObjects.drop skip
    if needed.length < span.2 then none
    else
      sendRequest around { context with neededObjects := needed.drop span.2 }
        span ((needed.take span.2).map Prod.fst)

def eraseHashes (needed : List (Hash × Nat)) (hashes : List Hash) : List (Hash × Nat) :=
  hashes.foldl (fun needed hash => needed.eraseP fun object => decide (object.1 = hash)) needed

def settleNoSpan : Option ConnectionContext :=
  let blockchainHeight := around.currentBlockchainHeight
  if around.targetBlockchainHeight ≤
      max blockchainHeight (queue.getNextNeededHeight blockchainHeight) then
    some { context with state := .normal }
  else none

def requestNextScheduled : Option ConnectionContext :=
  let scheduled := queue.getNextSpanIfScheduled
  if 0 < scheduled.1.2 ∧ hasUnprunedBlock scheduled.1.1
      context.remoteBlockchainHeight context.pruningSeed then
    sendRequest around { context with
        neededObjects := eraseHashes context.neededObjects scheduled.2 }
      scheduled.1 scheduled.2
  else context.settleNoSpan around queue

def requestChain : Option ConnectionContext :=
  let context := { context with neededObjects := [] }
  let lastHeight := subMod 64 context.remoteBlockchainHeight 1
  if around.currentBlockchainHeight < around.targetBlockchainHeight ∧
      around.syncLockFree ∧ queue.hasFilledSpan then
    some { context with state := .standby }
  else if context.lastResponseHeight < lastHeight then
    match around.shortChainHistory with
    | [] => none
    | front :: _ =>
      some { context with
        expectHeight := if context.lastKnownHash ≠ nullHash ∧ front ≠ context.lastKnownHash then
            2 ^ 64 - 1
          else around.currentBlockchainHeight
        expectResponse := .chainEntry }
  else if context.lastResponseHeight = lastHeight ∧ context.requestedObjects = ∅ then
    some { context with state := .normal }
  else none

def requestNeeded (forceNextSpan : Bool) : Option (ConnectionContext × BlockQueue Entry) :=
  if addMod 64 context.lastResponseHeight 1 < context.neededObjects.length then
    (requestChain around { context with lastResponseHeight := 0 } queue).map (·, queue)
  else
    let skipped := context.skipUnneededHashes around queue false
    if nothingLeft skipped then (skipped.2.settleNothingLeft around queue).map (·, queue)
    else
      let reserved := queue.reserveSpan (skipped.2.spanRequest around)
      if 0 < reserved.1.2 then (skipped.2.requestReserved around reserved.1).map (·, reserved.2)
      else if forceNextSpan then (skipped.2.settleNoSpan around reserved.2).map (·, reserved.2)
      else (skipped.2.requestNextScheduled around reserved.2).map (·, reserved.2)

def requestObjects (forceNextSpan : Bool) : Option (ConnectionContext × BlockQueue Entry) :=
  let scheduled := queue.getNextSpanIfScheduled
  if forceNextSpan ∧ 0 < scheduled.1.2 then
    (sendRequest around context scheduled.1 scheduled.2).map (·, queue)
  else if forceNextSpan ∨ ¬context.neededObjects.isEmpty then
    context.requestNeeded around queue forceNextSpan
  else (context.requestChain around queue).map (·, queue)

def requestMissingObjects (forceNextSpan : Bool) : Option (ConnectionContext × BlockQueue Entry) :=
  let queue := queue.flushStaleSpans around.liveConnections
  if forceNextSpan then context.requestObjects around queue true
  else
    match context.decideRequest around queue with
    | .result answer => answer.map (·, queue)
    | .proceed context forceNextSpan => context.requestObjects around queue forceNextSpan

/-- The first hash must be known or requested; past a block that is not known, no other may be. -/
def checkAnnounced (startHeight index : Nat) (expectUnknown : Bool) (hash : Hash) : Option Bool :=
  if index = 0 then
    if around.haveBlock hash = none ∧ hash ∉ queue.requestedHashes ∧ hash ∉ queue.haveBlocks then
      none
    else some (around.haveBlock hash).isNone
  else
    match around.haveBlock hash with
    | none => some true
    | some .invalid => none
    | some .mainChain =>
      if expectUnknown ∨ around.blockIdByHeight (addMod 64 startHeight index) ≠ hash then none
      else some false
    | some .altChain => if expectUnknown then none else some false

def collectNeeded (queue : BlockQueue Entry) (entry : ChainEntry)
    (nUseBlocks : Nat) : List Hash → (index : Nat) → (blocksFound : List Hash) →
      (expectUnknown : Bool) → Option (List (Hash × Nat))
  | [], _, _, _ => some []
  | hash :: rest, index, blocksFound, expectUnknown =>
    if hash ∈ blocksFound then none
    else
      match checkAnnounced around queue entry.startHeight index expectUnknown hash with
      | none => none
      | some expectUnknown =>
        let object := (hash, entry.blockWeights.getD index 0)
        if index + 1 = nUseBlocks then some [object]
        else
          (collectNeeded queue entry nUseBlocks rest (index + 1)
            (hash :: blocksFound) expectUnknown).map (object :: ·)

def acceptsEntry (entry : ChainEntry) : Bool :=
  decide (context.expectResponse = .chainEntry) &&
    decide (addMod 64 entry.startHeight 1 ≤ context.expectHeight) &&
    !entry.blockIds.isEmpty &&
    decide (entry.blockIds.length ≤ entry.totalHeight) &&
    decide (entry.startHeight ≤ entry.totalHeight - entry.blockIds.length) &&
    (entry.blockWeights.isEmpty || decide (entry.blockWeights.length = entry.blockIds.length)) &&
    decide (entry.totalHeight < cryptonoteMaxBlockNumber) &&
    decide (entry.blockIds.length ≤ blocksIdsSynchronizingMaxCount) &&
    decide (entry.startHeight + entry.blockIds.length - 1 ≤ entry.totalHeight)

def takeOver (entry : ChainEntry)
    (nUseBlocks : Nat) (needed : List (Hash × Nat)) : ConnectionContext :=
  { context with
    expectResponse := .nothing
    remoteBlockchainHeight := entry.totalHeight
    lastResponseHeight := subMod 64 (entry.startHeight + entry.blockIds.length - 1)
        (subMod 64 entry.blockIds.length nUseBlocks)
    neededObjects := needed }

/-- The connection with the announced hashes, once they are checked. -/
def takeOverEntry (entry : ChainEntry) : Option ConnectionContext :=
  if context.acceptsEntry entry = false then none
  else
    (Prevalidation.prevalidateBlockHashes around.groupHash around.hashTables around.mainChain
      entry.startHeight entry.blockIds entry.blockWeights).bind fun (nUseBlocks, _) =>
        if nUseBlocks = 0 ∨ nUseBlocks + hashOfHashesStep ≤ entry.blockIds.length then none
        else
          (collectNeeded around queue entry nUseBlocks entry.blockIds 0 [] false).map
            (context.takeOver entry nUseBlocks)

def handleResponseChainEntry (entry : ChainEntry) : Option (ConnectionContext × BlockQueue Entry) :=
  (context.takeOverEntry around queue entry).bind fun context =>
    (requestMissingObjects around context queue false).map fun after =>
      ({ after.1 with numRequested := 0 }, after.2)

end ConnectionContext

end LodeChain

import LodeChain.StoredCounts

/-!
# Rings

The outputs of a ring are prefetched, read in bulk or read alone. `check_tx_inputs` accepts a ring
only if each of them is found and old enough.
-/

namespace LodeChain

open WrappedArithmetic

structure OutputData where
  pubkey : PublicKey
  unlockTime : Nat
  height : Nat
  commitment : RctKey
  deriving DecidableEq, Repr

structure PrefixData where
  version : Nat
  unlockTime : Nat
  vin : List TxIn
  vout : List TxOut
  extra : List UInt8
  deriving DecidableEq, Repr

def Transaction.prefixData (tx : Transaction) : PrefixData :=
  ⟨tx.version, tx.unlockTime, tx.vin, tx.vout, tx.extra⟩

abbrev ScanTable := PrefixData → KeyImage → Option (List OutputData)

def ScanTable.empty : ScanTable :=
  fun _ _ => none

def relativeOutputOffsetsToAbsolute : List Nat → List Nat
  | [] => []
  | first :: rest => first :: runningSums 64 first rest

variable (senv : StorageEnv)

def OutKey.outputData (amount : UInt64) (key : OutKey) : OutputData where
  pubkey := key.pubkey
  unlockTime := key.unlockTime
  height := key.height
  commitment := if amount = 0 then key.commitment.getD 0 else senv.zeroCommit amount

namespace Lmdb

def getOutputKey (db : Lmdb) (amount : UInt64) (index : Nat) : Option OutputData :=
  (db.outputs.outputAmounts.find? (toLex (amount.toNat, index))).map (OutKey.outputData senv amount)

def getOutputKeys (senv : StorageEnv) (db : Lmdb) (amount : UInt64) : List Nat → List OutputData
  | [] => []
  | offset :: rest =>
    match db.getOutputKey senv amount offset with
    | none => []
    | some output => output :: getOutputKeys senv db amount rest

def getNumOutputs (db : Lmdb) (amount : UInt64) : Nat :=
  (db.outputs.rowsOf amount.toNat).length

end Lmdb

def offsetMap (batch : List Transaction) (amount : UInt64) : List Nat :=
  let offsets := batch.flatMap fun tx => tx.vin.flatMap fun
    | .toKey other keyOffsets _ =>
      if other = amount then relativeOutputOffsetsToAbsolute keyOffsets
      else []
    | _ => []
  (sortAscending offsets).dedup

def foundOutputs (offsets : List Nat) (outputs : List OutputData) : List Nat → List OutputData
  | [] => []
  | needed :: rest =>
    match outputs[offsets.idxOf needed]? with
    | none => []
    | some output => output :: foundOutputs offsets outputs rest

/-- The table `prepare_handle_incoming_blocks` leaves. Another input than a key makes it throw, and
a repeated transaction makes it give up. -/
def prefetch (db : Lmdb) (batch : List Transaction) : ScanTable :=
  if (batch.all fun tx => tx.vin.all TxIn.isToKey) ∧ (batch.map Transaction.prefixData).Nodup then
    fun data keyImage => if data ∈ batch.map Transaction.prefixData then
        data.vin.findSome? fun
          | .toKey amount keyOffsets image =>
            if image = keyImage then
              let offsets := offsetMap batch amount
              some (foundOutputs offsets (db.getOutputKeys senv amount offsets)
                (relativeOutputOffsetsToAbsolute keyOffsets))
            else none
          | _ => none
      else none
  else ScanTable.empty

/-- `keyImageInDomain` is none where `rct::scalarmultKey` throws, as the key image is no point. -/
structure RingEnv where
  signatureSizes : Transaction → List Nat
  checkRingSignature : Transaction → Nat → List OutputData → Bool
  verRctNonSemanticsSimple : Transaction → List (List OutputData) → Bool
  verRctFull : Transaction → List (List OutputData) → Bool
  bulletproofOutputs : Transaction → List Nat
  checkKey : PublicKey → Bool
  keyImageInDomain : KeyImage → Option Bool

inductive TxFailure where
  | tooFewOutputs
  | lowMixin
  | verificationFailed
  | doubleSpend
  | unflagged
  deriving DecidableEq, Repr

namespace TxFailure

def check (condition : Prop) [Decidable condition] (failure : TxFailure) : Except TxFailure Unit :=
  if condition then .ok () else .error failure

def expect {α : Type} : Option α → Except TxFailure α
  | none => .error unflagged
  | some value => .ok value

theorem check_bind_eq_ok_iff {β : Type} {condition : Prop}
    [Decidable condition] {failure : TxFailure} {next : Unit → Except TxFailure β} {result : β} :
    (check condition failure >>= next) = .ok result ↔ condition ∧ next () = .ok result := by
  by_cases holds : condition
  · simp [check, holds, bind, Except.bind]
  · simp [check, holds, bind, Except.bind]

theorem expect_bind_eq_ok_iff {α β : Type} {found : Option α}
    {next : α → Except TxFailure β} {result : β} : (expect found >>= next) = .ok result ↔
      ∃ value, found = some value ∧ next value = .ok result := by
  cases found with
  | none => simp [expect, bind, Except.bind]
  | some value => simp [expect, bind, Except.bind]

theorem bind_eq_ok_iff {α β : Type} {first : Except TxFailure α}
    {next : α → Except TxFailure β} {result : β} :
    (first >>= next) = .ok result ↔ ∃ value, first = .ok value ∧ next value = .ok result := by
  cases first with
  | error failure => simp [bind, Except.bind]
  | ok value => simp [bind, Except.bind]

end TxFailure

/-- `currentTime` is the adjusted time from version 13 on and the system time before. -/
structure RingContext where
  db : Lmdb
  scanTable : ScanTable
  hfVersion : Nat
  currentTime : Nat

namespace RingContext

variable (ctx : RingContext)

def isTxSpendtimeUnlocked (unlockTime : Nat) : Bool :=
  if unlockTime < maxBlockNumber then
    unlockTime ≤ addMod 64 (subMod 64 ctx.db.height 1) lockedTxAllowedDeltaBlocks
  else
    unlockTime ≤ addMod 64 ctx.currentTime
      ((if ctx.hfVersion < 2 then difficultyTargetV1 else difficultyTargetV2) *
        lockedTxAllowedDeltaBlocks)

def ringOutputs (tx : Transaction)
    (amount : UInt64) (keyImage : KeyImage) (absolute : List Nat) : Option (List OutputData) :=
  match ctx.scanTable tx.prefixData keyImage with
  | none =>
    let outputs := ctx.db.getOutputKeys senv amount absolute
    if outputs.length = absolute.length then some outputs else none
  | some outputs =>
    if outputs.length < absolute.length ∧ 0 < outputs.length then
      let addOffsets := absolute.drop outputs.length
      let addOutputs := ctx.db.getOutputKeys senv amount addOffsets
      if addOutputs.length = addOffsets.length then some (outputs ++ addOutputs)
      else none
    else some outputs

/-- The loop of `scan_outputkeys_for_indexes`: an uncollected output is read alone, and each must be
unlocked. -/
def scanMembers (senv : StorageEnv) (ctx : RingContext) (amount : UInt64) :
    List OutputData → List Nat → Option (List OutputData)
  | _, [] => some []
  | outputs, offset :: rest => do
      let output ← outputs.head?.or (ctx.db.getOutputKey senv amount offset)
      guard (ctx.isTxSpendtimeUnlocked output.unlockTime)
      let members ← scanMembers senv ctx amount outputs.tail rest
      some (output :: members)

def scanOutputkeysForIndexes (tx : Transaction) (amount : UInt64) (keyOffsets : List Nat)
    (keyImage : KeyImage) (maxRelatedBlockHeight : Nat) : Option (List OutputData × Nat) := do
  guard (keyOffsets ≠ [])
  let absolute := relativeOutputOffsetsToAbsolute keyOffsets
  let outputs ← ctx.ringOutputs senv tx amount keyImage absolute
  let members ← ctx.scanMembers senv amount outputs absolute
  some (members, match members.getLast? with
    | none => maxRelatedBlockHeight
    | some last => max maxRelatedBlockHeight last.height)

def checkInputsFrom (renv : RingEnv) (senv : StorageEnv) (ctx : RingContext)
    (tx : Transaction) : Nat → Nat → List TxIn → Except TxFailure (List (List OutputData) × Nat)
  | _, maxUsedBlockHeight, [] => .ok ([], maxUsedBlockHeight)
  | sigIndex, maxUsedBlockHeight, .toKey amount keyOffsets keyImage :: rest => do
      TxFailure.check (keyOffsets ≠ []) .unflagged
      TxFailure.check (ctx.db.spentKeys.find? keyImage = none) .doubleSpend
      TxFailure.check (tx.version = 1 → sigIndex < (renv.signatureSizes tx).length) .unflagged
      let scanned ← TxFailure.expect <|
        ctx.scanOutputkeysForIndexes senv tx amount keyOffsets keyImage maxUsedBlockHeight
      TxFailure.check (tx.version = 1 →
          (renv.signatureSizes tx)[sigIndex]? = some scanned.1.length) .unflagged
      let checked ← checkInputsFrom renv senv ctx tx (sigIndex + 1) scanned.2 rest
      .ok (scanned.1 :: checked.1, checked.2)
  | _, _, .gen _ :: _ => .error .unflagged
  | _, _, .toScript _ _ _ :: _ => .error .unflagged
  | _, _, .toScriptHash _ _ _ _ _ :: _ => .error .unflagged

def minMixin (hfVersion : Nat) : Nat :=
  if hfVersionMinMixin15 ≤ hfVersion then 15
  else if hfVersionMinMixin10 ≤ hfVersion then 10
  else if hfVersionMinMixin6 ≤ hfVersion then 6
  else if hfVersionMinMixin4 ≤ hfVersion then 4
  else 2

def ringMixins (tx : Transaction) : List Nat :=
  tx.vin.filterMap fun
    | .toKey _ keyOffsets _ => some (subMod 64 keyOffsets.length 1)
    | _ => none

def isUnmixable : TxIn → Bool
  | .toKey amount _ _ =>
    amount != 0 && decide (ctx.db.getNumOutputs amount ≤ minMixin ctx.hfVersion)
  | _ => false

def checkRingSize (hfVersion minActualMixin nUnmixable nMixable : Nat) : Bool :=
  if minActualMixin < minMixin hfVersion ∧
      ¬(hfVersion = hfVersionMinMixin15 ∧ minActualMixin = 10) then
    nUnmixable ≠ 0 ∧ nMixable ≤ 1
  else
    ¬((hfVersionMinMixin15 < hfVersion ∧ 15 < minActualMixin) ∨
      (hfVersion = hfVersionMinMixin15 ∧ minActualMixin ≠ 15 ∧ minActualMixin ≠ 10) ∨
      (hfVersion < hfVersionMinMixin15 ∧ hfVersionMinMixin10 + 2 ≤ hfVersion ∧
        10 < minActualMixin) ∨
      ((hfVersion = hfVersionMinMixin10 ∨
        hfVersion = hfVersionMinMixin10 + 1) ∧ minActualMixin ≠ 10))

def checkMixins (tx : Transaction) : Bool :=
  let nUnmixable := tx.vin.countP ctx.isUnmixable
  let nMixable := tx.vin.countP fun input => input.isToKey && !ctx.isUnmixable input
  let minActualMixin := (ringMixins tx).foldl min (2 ^ 64 - 1)
  let maxActualMixin := (ringMixins tx).foldl max 0
  (ctx.hfVersion < hfVersionSameMixin || minActualMixin == maxActualMixin) &&
    checkRingSize ctx.hfVersion minActualMixin nUnmixable nMixable

def checkTxVersion (tx : Transaction) : Bool :=
  let maxTxVersion := if ctx.hfVersion ≤ 3 then 1 else 2
  let minTxVersion := if 0 < tx.vin.countP ctx.isUnmixable then 1
    else if hfVersionEnforceRct ≤ ctx.hfVersion then 2
    else 1
  minTxVersion ≤ tx.version ∧ tx.version ≤ maxTxVersion

/-- `memcmp` orders key images as numbers written from the highest byte. -/
def sortedKeyImages : List KeyImage → Bool
  | first :: second :: rest => second < first && sortedKeyImages (second :: rest)
  | _ => true

def checkSignatures (renv : RingEnv) (ctx : RingContext) (tx : Transaction)
    (pubkeys : List (List OutputData)) : Bool :=
  if tx.version = 1 then pubkeys.zipIdx.all fun ring => renv.checkRingSignature tx ring.2 ring.1
  else
    (match tx.rctSignatures.type with
      | .null => false
      | .full => renv.verRctFull tx pubkeys
      | _ => renv.verRctNonSemanticsSimple tx pubkeys) &&
      (!isRctBulletproof tx.rctSignatures.type || 8 ≤ ctx.hfVersion ||
        (renv.bulletproofOutputs tx).all (· ≤ 1))

/-- `Blockchain::check_tx_inputs`, with `max_used_block_height`. Version 1 signatures are checked
after the loop, as with several threads. -/
def checkTxInputs (renv : RingEnv) (senv : StorageEnv) (ctx : RingContext)
    (tx : Transaction) : Except TxFailure Nat :=
  if tx.pruned then .ok 0
  else do
    TxFailure.check (hfVersionMin2Outputs ≤ ctx.hfVersion → 2 ≤ tx.version →
        2 ≤ tx.vout.length) .tooFewOutputs
    TxFailure.check (2 ≤ ctx.hfVersion → ctx.checkMixins tx) .lowMixin
    TxFailure.check (2 ≤ ctx.hfVersion → ctx.checkTxVersion tx) .verificationFailed
    TxFailure.check (7 ≤ ctx.hfVersion → sortedKeyImages tx.keyImages) .verificationFailed
    let checked ← ctx.checkInputsFrom renv senv tx 0 0 tx.vin
    TxFailure.check (hfVersionEnforceMinAge ≤ ctx.hfVersion →
        checked.2 + defaultTxSpendableAge ≤ ctx.db.height) .unflagged
    TxFailure.check (ctx.checkSignatures renv tx checked.1) .unflagged
    .ok checked.2

end RingContext

def checkOutsValid (renv : RingEnv) (tx : Transaction) : Bool :=
  tx.vout.all fun out => match getOutputPublicKey out with
    | none => false
    | some key => (tx.version != 1 || out.amount != 0) && renv.checkKey key

def checkInputsOverflowFrom (money : Nat) : List TxIn → Bool
  | [] => true
  | .toKey amount _ _ :: rest =>
    if addMod 64 amount.toNat money < money then false
    else checkInputsOverflowFrom (addMod 64 money amount.toNat) rest
  | _ :: _ => false

def checkMoneyOverflow (tx : Transaction) : Bool :=
  checkInputsOverflowFrom 0 tx.vin && checkOutsOverflow tx

def checkTxInputsKeyimagesDiff (tx : Transaction) : Bool :=
  tx.vin.all TxIn.isToKey && decide tx.keyImages.Nodup

def checkTxInputsRingMembersDiff (tx : Transaction) (hfVersion : Nat) : Bool :=
  if 6 ≤ hfVersion then
    tx.vin.all fun
      | .toKey _ keyOffsets _ => keyOffsets.tail.all fun offset => offset != 0
      | _ => false
  else true

def checkTxInputsKeyimagesDomain (renv : RingEnv) : List TxIn → Option Bool
  | [] => some true
  | .toKey _ _ keyImage :: rest => do
    if ← renv.keyImageInDomain keyImage then checkTxInputsKeyimagesDomain renv rest
    else some false
  | _ :: _ => some false

/-- `core::check_tx_semantic`; none for an exception of `get_transaction_weight` or of
`scalarmultKey`. -/
def checkTxSemantic (renv : RingEnv) (senv : StorageEnv)
    (hfVersion weightLimit : Nat) (tx : Transaction) (keptByBlock : Bool) : Option Bool := do
  if !(tx.vin != [] && checkInputsTypesSupported tx && checkOutsValid renv tx &&
      (tx.version ≤ 1 || (senv.outPk tx).length == tx.vout.length) &&
      checkMoneyOverflow tx &&
      (tx.version != 1 || (getInputsMoneyAmount tx).any fun amountIn =>
        getOutsMoneyAmount tx < amountIn)) then
    return false
  if !keptByBlock then
    if subMod 64 weightLimit coinbaseBlobReservedSize ≤ (← getTransactionWeight tx) then
      return false
  if !(checkTxInputsKeyimagesDiff tx && checkTxInputsRingMembersDiff tx hfVersion) then
    return false
  if !(← checkTxInputsKeyimagesDomain renv tx.vin) then
    return false
  return checkOutputTypes tx hfVersion

/-! ## Scans of rings -/

open List

namespace Lmdb

theorem getOutputKeys_isPrefix (senv : StorageEnv) (db : Lmdb)
    (amount : UInt64) (offsets : List Nat) : (db.getOutputKeys senv amount offsets).map some <+:
      offsets.map (db.getOutputKey senv amount) := by
  induction offsets with
  | nil => exact prefix_rfl
  | cons offset rest ih =>
    rw [getOutputKeys]
    cases found : db.getOutputKey senv amount offset with
    | none => exact nil_prefix
    | some output =>
      rw [map_cons, map_cons, found]
      exact (prefix_cons_inj _).mpr ih

end Lmdb

variable {outputs members : List OutputData} {db : Lmdb} {last : OutputData} {inputs : List TxIn}
  {start maxUsedBlockHeight : Nat} {keyImages : List KeyImage}

theorem foundOutputs_isPrefix {read : Nat → Option OutputData} {offsets : List Nat}
    (found : outputs.map some <+: offsets.map read) (needed : List Nat) :
    (foundOutputs offsets outputs needed).map some <+: needed.map read := by
  induction needed with
  | nil => exact prefix_rfl
  | cons offset rest ih =>
    rw [foundOutputs]
    cases position : outputs[offsets.idxOf offset]? with
    | none => exact nil_prefix
    | some output =>
      have listed : (outputs.map some)[offsets.idxOf offset]? = some (some output) := by
        rw [getElem?_map, position]
        rfl
      have readAt := ListFacts.getElem?_of_isPrefix found listed
      rw [getElem?_map, Option.map_eq_some_iff] at readAt
      obtain ⟨stored, atPosition, value⟩ := readAt
      obtain ⟨lt, same⟩ := List.getElem?_eq_some_iff.mp atPosition
      rw [getElem_idxOf] at same
      rw [map_cons, map_cons, same, value]
      exact (prefix_cons_inj _).mpr ih

/-- What the table has for a ring is what the database has at the first offsets. -/
def ScanTable.Agrees (senv : StorageEnv) (db : Lmdb) (table : ScanTable) : Prop :=
  ∀ data amount keyOffsets keyImage outputs, (data.vin.filterMap TxIn.keyImage?).Nodup →
    .toKey amount keyOffsets keyImage ∈ data.vin →
    table data keyImage = some outputs →
    outputs.map some <+: (relativeOutputOffsetsToAbsolute keyOffsets).map
        (db.getOutputKey senv amount)

theorem ScanTable.agrees_empty (senv : StorageEnv) (db : Lmdb) :
    ScanTable.empty.Agrees senv db := by
  intro data amount keyOffsets keyImage outputs _ _ found
  cases found

theorem agrees_prefetch (senv : StorageEnv) (db : Lmdb) (batch : List Transaction) :
    (prefetch senv db batch).Agrees senv db := by
  intro data amount keyOffsets keyImage outputs distinct input prefetched
  unfold prefetch at prefetched
  split_ifs at prefetched with usable
  · dsimp only at prefetched
    split_ifs at prefetched with known
    obtain ⟨other, mem, found⟩ := exists_of_findSome?_eq_some prefetched
    cases other with
    | toKey otherAmount otherOffsets otherImage =>
      simp only at found
      split_ifs at found with same
      subst same
      have eq := ListFacts.eq_of_nodup_filterMap distinct mem input rfl rfl
      cases eq
      rw [← Option.some.inj found]
      exact foundOutputs_isPrefix (db.getOutputKeys_isPrefix senv amount _) _
    | gen _ => cases found
    | toScript _ _ _ => cases found
    | toScriptHash => cases found
  · cases prefetched

namespace RingContext

variable {renv : RingEnv} {senv : StorageEnv} {ctx : RingContext}
  {tx : Transaction} {amount : UInt64} {keyOffsets : List Nat} {keyImage : KeyImage}

theorem ringOutputs_isPrefix (agrees : ctx.scanTable.Agrees senv ctx.db)
    (distinct : tx.keyImages.Nodup) (input : .toKey amount keyOffsets keyImage ∈ tx.vin)
    (collected : ctx.ringOutputs senv tx amount keyImage
      (relativeOutputOffsetsToAbsolute keyOffsets) = some outputs) :
    outputs.map some <+: (relativeOutputOffsetsToAbsolute keyOffsets).map
        (ctx.db.getOutputKey senv amount) := by
  unfold ringOutputs at collected
  cases cached : ctx.scanTable tx.prefixData keyImage with
  | none =>
    simp only [cached] at collected
    split_ifs at collected
    rw [← Option.some.inj collected]
    exact ctx.db.getOutputKeys_isPrefix senv amount _
  | some table =>
    have agreed := agrees tx.prefixData _ _ _ _ distinct input cached
    simp [cached] at collected
    split_ifs at collected with short added
    · rw [← Option.some.inj collected, map_append]
      have split := prefix_iff_eq_append.mp agreed
      rw [length_map, ← map_drop] at split
      rw [← split]
      exact (prefix_append_right_inj _).mpr (ctx.db.getOutputKeys_isPrefix senv amount _)
    · rw [← Option.some.inj collected]
      exact agreed

theorem map_scanMembers {absolute : List Nat}
    (collected : outputs.map some <+: absolute.map (ctx.db.getOutputKey senv amount))
    (scanned : ctx.scanMembers senv amount outputs absolute = some members) :
    members.map some = absolute.map (ctx.db.getOutputKey senv amount) := by
  induction absolute generalizing outputs members with
  | nil =>
    rw [scanMembers, Option.some.injEq] at scanned
    rw [← scanned]
    rfl
  | cons offset rest ih =>
    obtain ⟨output, found, scanned⟩ := Option.bind_eq_some_iff.mp scanned
    obtain ⟨_, _, scanned⟩ := Option.bind_eq_some_iff.mp scanned
    obtain ⟨others, later, listed⟩ := Option.bind_eq_some_iff.mp scanned
    rw [← Option.some.inj listed, map_cons, map_cons]
    cases outputs with
    | nil =>
      have rest := @ih [] _ nil_prefix later
      rw [rest, ← found]
      rfl
    | cons first others =>
      rw [map_cons, map_cons, cons_prefix_cons] at collected
      rw [ih collected.2 later, ← collected.1, ← found]
      rfl

end RingContext

variable {keyOffsets : List Nat}

theorem relativeOutputOffsetsToAbsolute_ne_nil (ne : keyOffsets ≠ []) :
    relativeOutputOffsetsToAbsolute keyOffsets ≠ [] := by
  cases keyOffsets with
  | nil => exact absurd rfl ne
  | cons first rest => simp [relativeOutputOffsetsToAbsolute]

structure RingRead (senv : StorageEnv) (db : Lmdb) (amount : UInt64)
    (keyOffsets : List Nat) (lastOffset : Nat) (last : OutputData) : Prop where
  members : ∀ offset ∈ relativeOutputOffsetsToAbsolute keyOffsets,
    ∃ output, db.getOutputKey senv amount offset = some output
  isLast : (relativeOutputOffsetsToAbsolute keyOffsets).getLast? = some lastOffset
  readLast : db.getOutputKey senv amount lastOffset = some last

theorem RingRead.of_map_eq {senv : StorageEnv} {amount : UInt64}
    (read : members.map some = (relativeOutputOffsetsToAbsolute keyOffsets).map
        (db.getOutputKey senv amount)) (isLast : members.getLast? = some last) :
    ∃ lastOffset, RingRead senv db amount keyOffsets lastOffset last := by
  have lasts := congrArg getLast? read
  rw [getLast?_map, getLast?_map, isLast, Option.map_some, eq_comm,
    Option.map_eq_some_iff] at lasts
  obtain ⟨lastOffset, position, found⟩ := lasts
  refine ⟨lastOffset, ?_, position, found⟩
  intro offset mem
  have listed : db.getOutputKey senv amount offset ∈ members.map some := by
    rw [read]
    exact mem_map_of_mem mem
  rw [mem_map] at listed
  obtain ⟨output, _, same⟩ := listed
  exact ⟨output, same.symm⟩

/-- The height is the greatest of `start` and those of the last members. -/
structure RingsRead (senv : StorageEnv) (db : Lmdb) (inputs : List TxIn)
    (start maxHeight : Nat) : Prop where
  toKeys : ∀ input ∈ inputs, input.isToKey = true
  start_le : start ≤ maxHeight
  read : ∀ amount keyOffsets keyImage, .toKey amount keyOffsets keyImage ∈ inputs →
    ∃ lastOffset last, RingRead senv db amount keyOffsets lastOffset last ∧ last.height ≤ maxHeight
  attained : maxHeight = start ∨ ∃ amount keyOffsets keyImage lastOffset last,
      .toKey amount keyOffsets keyImage ∈ inputs ∧
      RingRead senv db amount keyOffsets lastOffset last ∧ last.height = maxHeight

theorem RingsRead.nil (senv : StorageEnv) (db : Lmdb) (start : Nat) :
    RingsRead senv db [] start start where
  toKeys := by simp
  start_le := le_rfl
  read := by simp
  attained := Or.inl rfl

theorem RingsRead.cons {senv : StorageEnv}
    {maxHeight lastOffset : Nat} {amount : UInt64} {keyImage : KeyImage}
    (first : RingRead senv db amount keyOffsets lastOffset last)
    (rest : RingsRead senv db inputs (max start last.height) maxHeight) :
    RingsRead senv db (.toKey amount keyOffsets keyImage :: inputs) start maxHeight where
  toKeys := forall_mem_cons.mpr ⟨rfl, rest.toKeys⟩
  start_le := (le_max_left _ _).trans rest.start_le
  read := by
    intro other otherOffsets otherImage mem
    rcases mem_cons.mp mem with head | later
    · cases head
      exact ⟨lastOffset, last, first, (le_max_right _ _).trans rest.start_le⟩
    · exact rest.read other otherOffsets otherImage later
  attained := by
    rcases rest.attained with unchanged | ⟨other, otherOffsets, otherImage,
      otherLast, output, later, ring, greatest⟩
    · rcases max_choice start last.height with prev | new
      · exact Or.inl (unchanged.trans prev)
      · exact Or.inr ⟨amount, keyOffsets, keyImage, lastOffset, last,
          mem_cons_self, first, (unchanged.trans new).symm⟩
    · exact Or.inr ⟨other, otherOffsets, otherImage, otherLast, output,
        mem_cons_of_mem _ later, ring, greatest⟩

namespace RingContext

variable {renv : RingEnv} {senv : StorageEnv} {ctx : RingContext} {tx : Transaction}

theorem scanOutputkeysForIndexes_read {amount : UInt64}
    {keyOffsets : List Nat} {keyImage : KeyImage} {scanned : List OutputData × Nat}
    (agrees : ctx.scanTable.Agrees senv ctx.db) (distinct : tx.keyImages.Nodup)
    (input : .toKey amount keyOffsets keyImage ∈ tx.vin)
    (scan : ctx.scanOutputkeysForIndexes senv tx amount keyOffsets keyImage start = some scanned) :
    ∃ lastOffset last, RingRead senv ctx.db amount keyOffsets lastOffset last ∧
        scanned.2 = max start last.height := by
  obtain ⟨_, ne, scan⟩ := Option.bind_eq_some_iff.mp scan
  obtain ⟨outputs, collected, scan⟩ := Option.bind_eq_some_iff.mp scan
  obtain ⟨members, visited, result⟩ := Option.bind_eq_some_iff.mp scan
  have read := map_scanMembers (ringOutputs_isPrefix agrees distinct input collected) visited
  have absolute := relativeOutputOffsetsToAbsolute_ne_nil ((Option.guard_eq_some' _).mp ne)
  cases isLast : members.getLast? with
  | none =>
    rw [getLast?_eq_none_iff] at isLast
    rw [isLast, map_nil, eq_comm, map_eq_nil_iff] at read
    exact absurd read absolute
  | some last =>
    obtain ⟨lastOffset, ring⟩ := RingRead.of_map_eq read isLast
    refine ⟨lastOffset, last, ring, ?_⟩
    rw [← Option.some.inj result, isLast]

theorem checkInputsFrom_read {sigIndex : Nat}
    {checked : List (List OutputData) × Nat} (agrees : ctx.scanTable.Agrees senv ctx.db)
    (distinct : tx.keyImages.Nodup) (subset : ∀ input ∈ inputs, input ∈ tx.vin)
    (accepted : ctx.checkInputsFrom renv senv tx sigIndex start inputs = .ok checked) :
    RingsRead senv ctx.db inputs start checked.2 := by
  induction inputs generalizing sigIndex start checked with
  | nil =>
    rw [checkInputsFrom, Except.ok.injEq] at accepted
    rw [← accepted]
    exact RingsRead.nil senv ctx.db start
  | cons input rest ih =>
    rw [forall_mem_cons] at subset
    cases input with
    | toKey amount keyOffsets keyImage =>
      obtain ⟨_, accepted⟩ := TxFailure.check_bind_eq_ok_iff.mp accepted
      obtain ⟨_, accepted⟩ := TxFailure.check_bind_eq_ok_iff.mp accepted
      obtain ⟨_, accepted⟩ := TxFailure.check_bind_eq_ok_iff.mp accepted
      obtain ⟨scanned, scan, accepted⟩ := TxFailure.expect_bind_eq_ok_iff.mp accepted
      obtain ⟨_, accepted⟩ := TxFailure.check_bind_eq_ok_iff.mp accepted
      obtain ⟨others, loop, result⟩ := TxFailure.bind_eq_ok_iff.mp accepted
      obtain ⟨lastOffset, last, ring, height⟩ :=
        scanOutputkeysForIndexes_read agrees distinct subset.1 scan
      rw [height] at loop
      have others := ih subset.2 loop
      rw [← Except.ok.inj result]
      exact RingsRead.cons ring others
    | gen _ => cases accepted
    | toScript _ _ _ => cases accepted
    | toScriptHash => cases accepted

theorem checkTxInputs_unpruned (unpruned : tx.pruned = false)
    (accepted : ctx.checkTxInputs renv senv tx = .ok maxUsedBlockHeight) :
    (2 ≤ ctx.hfVersion → ctx.checkMixins tx = true) ∧
      (7 ≤ ctx.hfVersion → sortedKeyImages tx.keyImages = true) ∧
      (hfVersionEnforceMinAge ≤ ctx.hfVersion →
        maxUsedBlockHeight + defaultTxSpendableAge ≤ ctx.db.height) ∧
      ∃ pubkeys, ctx.checkInputsFrom renv senv tx 0 0 tx.vin =
        .ok (pubkeys, maxUsedBlockHeight) := by
  rw [checkTxInputs, unpruned] at accepted
  obtain ⟨_, accepted⟩ := TxFailure.check_bind_eq_ok_iff.mp accepted
  obtain ⟨mixins, accepted⟩ := TxFailure.check_bind_eq_ok_iff.mp accepted
  obtain ⟨_, accepted⟩ := TxFailure.check_bind_eq_ok_iff.mp accepted
  obtain ⟨sorted, accepted⟩ := TxFailure.check_bind_eq_ok_iff.mp accepted
  obtain ⟨checked, loop, accepted⟩ := TxFailure.bind_eq_ok_iff.mp accepted
  obtain ⟨age, accepted⟩ := TxFailure.check_bind_eq_ok_iff.mp accepted
  obtain ⟨_, result⟩ := TxFailure.check_bind_eq_ok_iff.mp accepted
  rw [← Except.ok.inj result]
  exact ⟨mixins, sorted, age, checked.1, loop⟩

theorem pairwise_of_sortedKeyImages
    (sorted : sortedKeyImages keyImages = true) : keyImages.Pairwise (· > ·) := by
  induction keyImages with
  | nil => exact List.Pairwise.nil
  | cons first rest ih =>
    cases rest with
    | nil => exact pairwise_singleton _ _
    | cons second others =>
      rw [sortedKeyImages, Bool.and_eq_true, decide_eq_true_iff] at sorted
      have later := ih sorted.2
      apply List.Pairwise.cons _ later
      intro keyImage mem
      rcases mem_cons.mp mem with rfl | mem
      · exact sorted.1
      · exact (rel_of_pairwise_cons later mem).trans sorted.1

theorem nodup_of_sortedKeyImages (sorted : sortedKeyImages keyImages = true) : keyImages.Nodup :=
  (pairwise_of_sortedKeyImages sorted).imp ne_of_gt

theorem vin_ne_nil_of_checkMixins (version : hfVersionSameMixin ≤ ctx.hfVersion)
    (checked : ctx.checkMixins tx = true) : tx.vin ≠ [] := by
  intro none
  simp only [checkMixins, ringMixins, none, filterMap_nil, foldl_nil,
    Bool.and_eq_true, Bool.or_eq_true, decide_eq_true_eq] at checked
  rcases checked.1 with early | same
  · omega
  · cases same

theorem checkTxInputs_read (agrees : ctx.scanTable.Agrees senv ctx.db)
    (version : 7 ≤ ctx.hfVersion) (unpruned : tx.pruned = false)
    (accepted : ctx.checkTxInputs renv senv tx = .ok maxUsedBlockHeight) :
    RingsRead senv ctx.db tx.vin 0 maxUsedBlockHeight := by
  obtain ⟨_, sorted, _, pubkeys, loop⟩ := checkTxInputs_unpruned unpruned accepted
  exact checkInputsFrom_read agrees
    (nodup_of_sortedKeyImages (sorted version)) (fun _ mem => mem) loop

end RingContext

/-! ## Members of a ring -/

/-- A transaction that `check_tx_semantic` and `check_tx_inputs` accept. -/
structure AcceptedTx (renv : RingEnv) (senv : StorageEnv) (ctx : RingContext)
    (weightLimit : Nat) (keptByBlock : Bool) (tx : Transaction) : Prop where
  semantic : checkTxSemantic renv senv ctx.hfVersion weightLimit tx keptByBlock = some true
  inputs : ∃ maxUsedBlockHeight, ctx.checkTxInputs renv senv tx = .ok maxUsedBlockHeight

variable {hfVersion : Nat} {tx : Transaction}

theorem checkTxInputsRingMembersDiff_of_checkTxSemantic {renv : RingEnv}
    {senv : StorageEnv} {weightLimit : Nat} {keptByBlock : Bool}
    (semantic : checkTxSemantic renv senv hfVersion weightLimit tx keptByBlock = some true) :
    checkTxInputsRingMembersDiff tx hfVersion = true := by
  by_contra refused
  rw [Bool.not_eq_true] at refused
  simp [checkTxSemantic, refused] at semantic
  split_ifs at semantic
  · simp at semantic
  · obtain ⟨weight, -, light⟩ := Option.bind_eq_some_iff.mp semantic
    simp at light
  · simp at semantic

theorem ne_zero_of_checkTxInputsRingMembersDiff {amount : UInt64} {keyImage : KeyImage}
    (checked : checkTxInputsRingMembersDiff tx hfVersion = true) (version : 6 ≤ hfVersion)
    (input : .toKey amount keyOffsets keyImage ∈ tx.vin) :
    ∀ offset ∈ keyOffsets.tail, offset ≠ 0 := by
  rw [checkTxInputsRingMembersDiff, if_pos version, all_eq_true] at checked
  simpa using checked _ input

theorem nodup_relativeOutputOffsetsToAbsolute_iff (words : ∀ offset ∈ keyOffsets, offset < 2 ^ 64) :
    (relativeOutputOffsetsToAbsolute keyOffsets).Nodup ↔
      ∀ start count, 0 < count → start + count ≤ keyOffsets.tail.length →
        ¬2 ^ 64 ∣ ((keyOffsets.tail.drop start).take count).sum := by
  cases keyOffsets with
  | nil =>
    simp [relativeOutputOffsetsToAbsolute]
    omega
  | cons first rest => exact nodup_runningSums_iff (words first mem_cons_self) rest

theorem not_dvd_sum_take_one {offsets : List Nat} (words : ∀ offset ∈ offsets, offset < 2 ^ 64)
    (ne : ∀ offset ∈ offsets, offset ≠ 0) {start : Nat} (lt : start + 1 ≤ offsets.length) :
    ¬2 ^ 64 ∣ ((offsets.drop start).take 1).sum := by
  have mem := getElem_mem (by omega : start < offsets.length)
  rw [drop_eq_getElem_cons (by omega)]
  intro divides
  exact ne _ mem (Nat.eq_zero_of_dvd_of_lt divides (words _ mem))

/-- The members of a ring of an accepted transaction are distinct exactly when no two or more
consecutive relative offsets after the first add up to a multiple of 2⁶⁴. -/
theorem AcceptedTx.nodup_ring_iff {renv : RingEnv} {senv : StorageEnv} {ctx : RingContext}
    {weightLimit : Nat} {keptByBlock : Bool} {tx : Transaction} {amount : UInt64}
    {keyOffsets : List Nat} {keyImage : KeyImage} (version : ctx.hfVersion = 16)
    (accepted : AcceptedTx renv senv ctx weightLimit keptByBlock tx)
    (input : .toKey amount keyOffsets keyImage ∈ tx.vin)
    (words : ∀ offset ∈ keyOffsets, offset < 2 ^ 64) :
    (relativeOutputOffsetsToAbsolute keyOffsets).Nodup ↔
      ∀ start count, 2 ≤ count → start + count ≤ keyOffsets.tail.length →
        ¬2 ^ 64 ∣ ((keyOffsets.tail.drop start).take count).sum := by
  have checked := checkTxInputsRingMembersDiff_of_checkTxSemantic accepted.semantic
  have nonzero := ne_zero_of_checkTxInputsRingMembersDiff checked (by omega) input
  rw [nodup_relativeOutputOffsetsToAbsolute_iff words]
  constructor
  · intro apart start count several inside
    exact apart start count (by omega) inside
  · intro apart start count positive inside
    by_cases single : count = 1
    · subst single
      apply not_dvd_sum_take_one _ nonzero inside
      intro offset member
      exact words offset (mem_of_mem_tail member)
    · exact apart start count (by omega) inside

def validRingEnv : RingEnv where
  signatureSizes := fun _ => []
  checkRingSignature := fun _ _ _ => true
  verRctNonSemanticsSimple := fun _ _ => true
  verRctFull := fun _ _ => true
  bulletproofOutputs := fun _ => []
  checkKey := fun _ => true
  keyImageInDomain := fun _ => some true

def ringSpend (keyOffsets : List Nat) (keyImage : KeyImage)
    (outputs unlockTime : Nat) : Transaction :=
  { Transaction.setNull with
    version := 2
    unlockTime := unlockTime
    vin := [.toKey 0 keyOffsets keyImage]
    vout := (List.range outputs).map fun index => ⟨0, .toTaggedKey (index + 1) 0⟩
    rctSignatures := ⟨.bulletproofPlus, 1, 2, 2000⟩ }

def ringBlock (height : Nat) (txs : List Transaction) : BlockEntry where
  bl :=
    { majorVersion := if height < 2 then 1 else 16
      minorVersion := 16
      timestamp := 120 * height
      prevId := height
      nonce := height + 1
      minerTx := { Transaction.setNull with
          version := if height < 2 then 1 else 2
          vin := [.gen height]
          vout := [⟨10, .toTaggedKey 1 0⟩]
          unlockTime := height + 60 }
      txHashes := txs.map Lmdb.plainStorageEnv.getTransactionHash }
  blockWeight := 100
  longTermBlockWeight := 100
  cumulativeDifficulty := height + 1
  alreadyGeneratedCoins := 10 * (height + 1)
  txs := txs

/-- Under amount 0, the outputs 1 to 16 are from height 2 and the outputs 27 and 28 from height
12. -/
def ringChain : List BlockEntry :=
  (List.range 13).map fun height => ringBlock height <| if height = 2 then [ringSpend [0] 100 16 0]
    else if height = 12 then [ringSpend [0] 101 2 1]
    else []

theorem ringChain_replayed : (Lmdb.replay Lmdb.plainStorageEnv 0 ringChain).isSome = true := by
  decide +kernel

def ringContext : RingContext where
  db := (Lmdb.replay Lmdb.plainStorageEnv 0 ringChain).get ringChain_replayed
  scanTable := ScanTable.empty
  hfVersion := 16
  currentTime := 0

theorem ringContext_replayed : Lmdb.replay Lmdb.plainStorageEnv 0 ringChain = some ringContext.db :=
  (Option.some_get ringChain_replayed).symm

def alternatingOffsets : List Nat :=
  [1, 1, 2 ^ 64 - 1, 1, 2 ^ 64 - 1, 1, 2 ^ 64 - 1, 1, 2 ^ 64 - 1, 1,
    2 ^ 64 - 1, 1, 2 ^ 64 - 1, 1, 2 ^ 64 - 1, 1]

theorem AcceptedTx.alternating_ring :
    AcceptedTx validRingEnv Lmdb.plainStorageEnv ringContext 600000 false
        (ringSpend alternatingOffsets 200 2 2) ∧
      ¬(relativeOutputOffsetsToAbsolute alternatingOffsets).Nodup := by
  exact ⟨⟨by decide +kernel, 2, by decide +kernel⟩, by decide⟩

theorem AcceptedTx.consecutive_ring :
    AcceptedTx validRingEnv Lmdb.plainStorageEnv ringContext 600000 false
        (ringSpend (List.replicate 16 1) 200 2 2) ∧
      (relativeOutputOffsetsToAbsolute (List.replicate 16 1)).Nodup := by
  have accepted : AcceptedTx validRingEnv Lmdb.plainStorageEnv ringContext
      600000 false (ringSpend (List.replicate 16 1) 200 2 2) :=
    ⟨by decide +kernel, 2, by decide +kernel⟩
  refine ⟨accepted, (accepted.nodup_ring_iff rfl mem_cons_self (by decide)).mpr ?_⟩
  intro start count several inside divides
  simp at inside
  rw [tail_replicate, drop_replicate, take_replicate, sum_replicate_nat, mul_one] at divides
  omega

/-! ## The age of ring members -/

open Option

variable {output : OutputData} {amount : UInt64} {index offset : Nat}

section

variable {senv : StorageEnv} {chain : List BlockEntry}

theorem height_lt_of_mem_chainOutputs {output : ChainOutput}
    (mem : output ∈ chainOutputs senv chain) : output.height < chain.length := by
  obtain ⟨entry, position, lt⟩ := mem_flatMap.mp mem
  rw [Lmdb.height_of_mem_blockOutputs lt]
  exact snd_lt_of_mem_zipIdx position

theorem chainOutputs_pairwise :
    (chainOutputs senv chain).Pairwise fun first second => first.height ≤ second.height := by
  induction chain using reverseRecOn with
  | nil => exact List.Pairwise.nil
  | append_singleton chain entry ih =>
    rw [chainOutputs_concat, pairwise_append]
    refine ⟨ih, ?_, ?_⟩
    · apply pairwise_of_forall_mem_list
      intro first firstMember second secondMember
      rw [Lmdb.height_of_mem_blockOutputs firstMember, Lmdb.height_of_mem_blockOutputs secondMember]
    · intro first prev second last
      rw [Lmdb.height_of_mem_blockOutputs last]
      exact (height_lt_of_mem_chainOutputs prev).le

theorem outputsOf_pairwise {relation : ChainOutput → ChainOutput → Prop}
    {outputs : List ChainOutput} (pairwise : outputs.Pairwise relation) (amount : Nat) :
    (outputsOf outputs amount).Pairwise fun first second => relation first.1 second.1 := by
  rw [← zipIdx_map_fst 0 outputs, pairwise_map] at pairwise
  exact pairwise.filter _

theorem height_le_of_index_le {amount first second : Nat} {older younger : ChainOutput × Nat}
    (olderAt : (outputsOf (chainOutputs senv chain) amount)[first]? = some older)
    (youngerAt : (outputsOf (chainOutputs senv chain) amount)[second]? = some younger)
    (ordered : first ≤ second) : older.1.height ≤ younger.1.height := by
  rcases ordered.eq_or_lt with rfl | before
  · rw [olderAt] at youngerAt
    rw [Option.some.inj youngerAt]
  · obtain ⟨firstInside, rfl⟩ := List.getElem?_eq_some_iff.mp olderAt
    obtain ⟨secondInside, rfl⟩ := List.getElem?_eq_some_iff.mp youngerAt
    exact pairwise_iff_getElem.mp (outputsOf_pairwise chainOutputs_pairwise amount) first second
      firstInside secondInside before

end

namespace Lmdb

variable {senv : StorageEnv} {pruningSeed : Nat} {chain : List BlockEntry}

theorem Records.getOutputKey_eq (records : Records senv db chain) (amount : UInt64) (index : Nat) :
    db.getOutputKey senv amount index =
      ((outputsOf (chainOutputs senv chain) amount.toNat)[index]?.bind
        fun output => output.1.outKey output.2).map (OutKey.outputData senv amount) := by
  rw [getOutputKey, records.outputs.find?_outputAmounts]

theorem Records.exists_of_getOutputKey (records : Records senv db chain)
    (found : db.getOutputKey senv amount index = some output) :
    ∃ listed, (outputsOf (chainOutputs senv chain) amount.toNat)[index]? =
        some listed ∧ listed.1.height = output.height := by
  rw [records.getOutputKey_eq, map_eq_some_iff] at found
  obtain ⟨key, stored, rfl⟩ := found
  obtain ⟨listed, position, recorded⟩ := bind_eq_some_iff.mp stored
  obtain ⟨pubkey, _, rfl⟩ := map_eq_some_iff.mp recorded
  exact ⟨listed, position, rfl⟩

theorem getOutputKey_of_isPrefix {before : Lmdb} {prev : List BlockEntry}
    (isPrefix : prev <+: chain) (earlierReplayed : replay senv pruningSeed prev = some before)
    (replayed : replay senv pruningSeed chain = some db)
    (found : before.getOutputKey senv amount index = some output) :
    db.getOutputKey senv amount index = some output := by
  rw [(records_of_replay earlierReplayed).getOutputKey_eq, map_eq_some_iff] at found
  obtain ⟨key, stored, same⟩ := found
  obtain ⟨listed, position, recorded⟩ := bind_eq_some_iff.mp stored
  rw [(records_of_replay replayed).getOutputKey_eq,
    ListFacts.getElem?_of_isPrefix (outputsOf_isPrefix
      (chainOutputs_isPrefix senv isPrefix) _) position,
    bind_some, recorded, map_some, same]

end Lmdb

/-- The table has been cleared, or was filled from a database that has since only had blocks
added. -/
inductive Scanned (senv : StorageEnv) (pruningSeed : Nat)
    (chain : List BlockEntry) : ScanTable → Prop
  | cleared : Scanned senv pruningSeed chain ScanTable.empty
  | prefetched (earlier : List BlockEntry) (before : Lmdb)
      (batch : List Transaction) (isPrefix : earlier <+: chain)
      (replayed : Lmdb.replay senv pruningSeed earlier = some before) :
      Scanned senv pruningSeed chain (prefetch senv before batch)

theorem map_isPrefix_of_reads {before after : Nat → Option OutputData}
    (reads : ∀ offset output, before offset = some output → after offset = some output)
    {outputs : List OutputData} {offsets : List Nat}
    (isPrefix : outputs.map some <+: offsets.map before) :
    outputs.map some <+: offsets.map after := by
  induction offsets generalizing outputs with
  | nil => exact isPrefix
  | cons offset rest ih =>
    cases outputs with
    | nil => exact nil_prefix
    | cons output others =>
      rw [map_cons, map_cons, cons_prefix_cons] at isPrefix
      rw [map_cons, map_cons, cons_prefix_cons, reads offset output isPrefix.1.symm]
      exact ⟨rfl, ih isPrefix.2⟩

theorem Scanned.agrees {senv : StorageEnv} {pruningSeed : Nat} {chain : List BlockEntry}
    {table : ScanTable} {db : Lmdb} (scanned : Scanned senv pruningSeed chain table)
    (replayed : Lmdb.replay senv pruningSeed chain = some db) : table.Agrees senv db := by
  cases scanned with
  | cleared => exact ScanTable.agrees_empty senv db
  | prefetched earlier before batch isPrefix earlierReplayed =>
    intro data amount keyOffsets keyImage outputs distinct input found
    apply map_isPrefix_of_reads _ (agrees_prefetch senv before batch _ _ _ _ _ distinct input found)
    intro offset output stored
    exact Lmdb.getOutputKey_of_isPrefix isPrefix earlierReplayed replayed stored

def UpToLast (keyOffsets : List Nat) (offset : Nat) : Prop :=
  ∀ last ∈ (relativeOutputOffsetsToAbsolute keyOffsets).getLast?, offset ≤ last

def ringHeights (outputs : List ChainOutput) (tx : Transaction) : Set Nat :=
  {height | ∃ amount keyOffsets keyImage offset output,
    .toKey amount keyOffsets keyImage ∈ tx.vin ∧
    offset ∈ relativeOutputOffsetsToAbsolute keyOffsets ∧
    UpToLast keyOffsets offset ∧
    (outputsOf outputs (UInt64.toNat amount))[offset]? = some output ∧
    output.1.height = height}

theorem upToLast_of_sum_lt (fits : keyOffsets.sum < 2 ^ 64)
    (mem : offset ∈ relativeOutputOffsetsToAbsolute keyOffsets) :
    UpToLast keyOffsets offset := by
  cases keyOffsets with
  | nil => cases mem
  | cons first rest =>
    intro last isLast
    exact le_getLast_runningSums fits isLast mem

section

variable {senv : StorageEnv} {pruningSeed : Nat} {chain : List BlockEntry} {maxHeight : Nat}

theorem RingRead.height_le (records : Lmdb.Records senv db chain) {lastOffset : Nat}
    {last : OutputData}
    (ring : RingRead senv db amount keyOffsets lastOffset last)
    (below : UpToLast keyOffsets offset) {output : ChainOutput × Nat}
    (found : (outputsOf (chainOutputs senv chain) amount.toNat)[offset]? = some output) :
    output.1.height ≤ last.height := by
  obtain ⟨listed, position, height⟩ := records.exists_of_getOutputKey ring.readLast
  rw [← height]
  exact height_le_of_index_le found position (below lastOffset ring.isLast)

theorem RingsRead.isGreatest (records : Lmdb.Records senv db chain)
    (rings : RingsRead senv db tx.vin 0 maxHeight) (ne : tx.vin ≠ []) :
    IsGreatest (ringHeights (chainOutputs senv chain) tx) maxHeight := by
  have attained : ∃ amount keyOffsets keyImage lastOffset last,
      .toKey amount keyOffsets keyImage ∈ tx.vin ∧
      RingRead senv db amount keyOffsets lastOffset last ∧
      last.height = maxHeight := by
    rcases rings.attained with zero | found
    · obtain ⟨input, rest, inputs⟩ := exists_cons_of_ne_nil ne
      have mem : input ∈ tx.vin := by
        rw [inputs]
        exact mem_cons_self
      cases input with
      | toKey amount keyOffsets keyImage =>
        obtain ⟨lastOffset, last, ring, bounded⟩ := rings.read amount keyOffsets keyImage mem
        exact ⟨amount, keyOffsets, keyImage, lastOffset, last, mem, ring, by omega⟩
      | gen _ => cases rings.toKeys _ mem
      | toScript _ _ _ => cases rings.toKeys _ mem
      | toScriptHash => cases rings.toKeys _ mem
    · exact found
  constructor
  · obtain ⟨amount, keyOffsets, keyImage, lastOffset, last, mem, ring, same⟩ := attained
    obtain ⟨listed, position, height⟩ := records.exists_of_getOutputKey ring.readLast
    refine ⟨amount, keyOffsets, keyImage, lastOffset, listed, mem,
      mem_of_getLast? ring.isLast, ?_, position, height.trans same⟩
    intro other isLast
    rw [ring.isLast, mem_some_iff] at isLast
    exact isLast.le
  · rintro height ⟨amount, keyOffsets, keyImage, offset, output, mem, _, below, found, rfl⟩
    obtain ⟨lastOffset, last, ring, bounded⟩ := rings.read amount keyOffsets keyImage mem
    exact (ring.height_le records below found).trans bounded

/-- When `check_tx_inputs` accepts an unpruned transaction at version 16, ring members are outputs
of the chain, `max_used_block_height` is the greatest height of the members up to the last of each
ring, and these are at least 10 blocks old; they are all members when offsets do not wrap around. -/
theorem checkTxInputs_age {renv : RingEnv} {ctx : RingContext} {maxUsedBlockHeight : Nat}
    (replayed : Lmdb.replay senv pruningSeed chain = some ctx.db)
    (scanned : Scanned senv pruningSeed chain ctx.scanTable)
    (version : ctx.hfVersion = 16) (unpruned : tx.pruned = false)
    (accepted : ctx.checkTxInputs renv senv tx = .ok maxUsedBlockHeight) :
    (∀ amount keyOffsets keyImage, .toKey amount keyOffsets keyImage ∈ tx.vin →
      ∀ offset ∈ relativeOutputOffsetsToAbsolute keyOffsets, ∃ output,
          (outputsOf (chainOutputs senv chain) amount.toNat)[offset]? = some output ∧
          (UpToLast keyOffsets offset → output.1.height + defaultTxSpendableAge ≤ chain.length) ∧
          (keyOffsets.sum < 2 ^ 64 → UpToLast keyOffsets offset)) ∧
      IsGreatest (ringHeights (chainOutputs senv chain) tx) maxUsedBlockHeight := by
  have records := Lmdb.records_of_replay replayed
  obtain ⟨mixins, _, age, _⟩ := RingContext.checkTxInputs_unpruned unpruned accepted
  have rings := RingContext.checkTxInputs_read (scanned.agrees replayed)
    (by omega) unpruned accepted
  constructor
  · intro amount keyOffsets keyImage input offset member
    obtain ⟨lastOffset, last, ring, bounded⟩ := rings.read amount keyOffsets keyImage input
    obtain ⟨output, found⟩ := ring.members offset member
    obtain ⟨listed, position, _⟩ := records.exists_of_getOutputKey found
    refine ⟨listed, position, ?_, fun fits => upToLast_of_sum_lt fits member⟩
    intro below
    have older := ring.height_le records below position
    have old := age (by rw [version]; decide)
    rw [records.height] at old
    omega
  · exact rings.isGreatest records (RingContext.vin_ne_nil_of_checkMixins (by rw [version]; decide)
        (mixins (by omega)))

end

def wrappingOffsets : List Nat :=
  [1, 1, 1, 1, 1, 1, 1, 1, 1, 1, 1, 1, 1, 1, 13, 2 ^ 64 - 11]

/-- The output 27 of amount 0 is from height 12 of 13 blocks. It is accepted in a ring that wraps
around, and in a pruned transaction. -/
theorem checkTxInputs_young_member :
    (outputsOf (chainOutputs Lmdb.plainStorageEnv ringChain) 0)[27]?.map
        (fun output => output.1.height) = some 12 ∧ ringChain.length = 13 ∧
      27 ∈ relativeOutputOffsetsToAbsolute wrappingOffsets ∧
      ringContext.checkTxInputs validRingEnv Lmdb.plainStorageEnv
        (ringSpend wrappingOffsets 200 2 2) = .ok 2 ∧ 27 ∈ relativeOutputOffsetsToAbsolute [27] ∧
      ringContext.checkTxInputs validRingEnv Lmdb.plainStorageEnv
        { ringSpend [27] 200 2 2 with pruned := true } = .ok 0 := by
  refine ⟨by decide, rfl, by decide, by decide +kernel, by decide, rfl⟩

theorem checkTxInputs_age_consecutive : ringContext.checkTxInputs validRingEnv Lmdb.plainStorageEnv
        (ringSpend (replicate 16 1) 200 2 2) = .ok 2 ∧
      IsGreatest (ringHeights (chainOutputs Lmdb.plainStorageEnv ringChain)
        (ringSpend (replicate 16 1) 200 2 2)) 2 := by
  have accepted : ringContext.checkTxInputs validRingEnv Lmdb.plainStorageEnv
      (ringSpend (replicate 16 1) 200 2 2) = .ok 2 := by
    decide +kernel
  exact ⟨accepted, (checkTxInputs_age ringContext_replayed .cleared rfl rfl accepted).2⟩

end LodeChain

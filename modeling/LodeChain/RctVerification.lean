import LodeChain.RingScans
import LodeChain.TxExtra

/-!
# Batched and cached verification

`handle_incoming_tx_accumulated_batch` checks the transactions of a batch one by one and their
proofs together. `tx_verification_utils.cpp` expands signatures with the keys of the rings, verifies
them and remembers what passed.
-/

namespace LodeChain

open List

/-- A transaction without ring signatures was parsed with their type left at null. -/
structure TxVerificationBatchInfo where
  tx : Transaction
  txHash : Hash
  verifivationFailed : Bool
  result : Bool
  parsed : tx.version < 2 → tx.rctSignatures.type = .null

/-- The core, the verifications of signatures, and the outputs of each range proof. -/
structure SemanticEnv where
  renv : RingEnv
  senv : StorageEnv
  hfVersion : Nat
  weightLimit : Nat
  verRct : Transaction → Bool
  verRctSemanticsSimple : List Transaction → Bool
  bulletproofs : Transaction → List Nat
  bulletproofsPlus : Transaction → List Nat

def bulletproofPlusMaxOutputs : Nat := 16

def isCanonicalLayout (maxOutputs : Nat) : List Nat → Bool
  | [size] => size ≠ 0 ∧ size ≤ maxOutputs
  | _ => false

inductive SemanticCheck where
  | thrown
  | failed
  | passed
  | delayed
  deriving DecidableEq

def SemanticCheck.of (check : Bool) (passes : SemanticCheck) : SemanticCheck :=
  if check then passes else .failed

theorem SemanticCheck.of_eq {check : Bool} {passes : SemanticCheck}
    (passed : SemanticCheck.of check passes ≠ .failed) :
    SemanticCheck.of check passes = passes := by
  rw [SemanticCheck.of] at passed ⊢
  split_ifs at passed ⊢ with checked
  · rfl
  · exact absurd rfl passed

namespace SemanticEnv

variable (env : SemanticEnv) (keptByBlock : Bool)

def checkSignatureType (tx : Transaction) : SemanticCheck :=
  if tx.version < 2 then .passed
  else
    match tx.rctSignatures.type with
    | .null => .failed
    | .simple => .of (env.verRctSemanticsSimple [tx]) .passed
    | .full => .of (env.verRct tx) .passed
    | .bulletproof | .bulletproof2 | .clsag =>
      .of (isCanonicalLayout bulletproofMaxOutputs (env.bulletproofs tx)) .delayed
    | .bulletproofPlus =>
      .of (isCanonicalLayout bulletproofPlusMaxOutputs (env.bulletproofsPlus tx)) .delayed

/-- What the first loop of `handle_incoming_tx_accumulated_batch` makes of a transaction. -/
def firstCheck (tx : Transaction) : SemanticCheck :=
  match checkTxSemantic env.renv env.senv env.hfVersion env.weightLimit tx keptByBlock with
  | none => .thrown
  | some false => .failed
  | some true => env.checkSignatureType tx

end SemanticEnv

def RctType.isBatched : RctType → Bool
  | .bulletproof | .bulletproof2 | .clsag | .bulletproofPlus => true
  | _ => false

namespace TxVerificationBatchInfo

def fail (info : TxVerificationBatchInfo) : TxVerificationBatchInfo :=
  { info with verifivationFailed := true, result := false }

def failIf (fails : TxVerificationBatchInfo → Bool) (info : TxVerificationBatchInfo) :
    TxVerificationBatchInfo :=
  if fails info then info.fail else info

theorem txHash_failIf (fails : TxVerificationBatchInfo → Bool) (info : TxVerificationBatchInfo) :
    (failIf fails info).txHash = info.txHash := by
  rw [failIf]
  split_ifs
  all_goals rfl

end TxVerificationBatchInfo

theorem filter_append_perm_or {α : Type} {p q : α → Bool}
    (apart : ∀ entry, p entry = true → q entry = false) (entries : List α) :
    (entries.filter p ++ entries.filter q).Perm
    (entries.filter fun entry => p entry || q entry) := by
  have split := filter_append_perm p (entries.filter fun entry => p entry || q entry)
  have left : (fun entry => p entry && (p entry || q entry)) = p := by
    funext entry
    cases p entry <;> rfl
  have right : (fun entry => !p entry && (p entry || q entry)) = q := by
    funext entry
    rcases first : p entry with _ | _
    · rfl
    · rw [apart entry first]
      rfl
  rwa [filter_filter, filter_filter, left, right] at split

/-- The value, none for an exception, the batch, and the transactions handed to
`set_semantics_failed`. -/
structure BatchVerdict where
  ret : Option Bool
  txInfo : List TxVerificationBatchInfo
  marked : List Hash

namespace SemanticEnv

open TxVerificationBatchInfo

variable (env : SemanticEnv) (keptByBlock : Bool) (info : TxVerificationBatchInfo)

def throws : Bool :=
  env.firstCheck keptByBlock info.tx = .thrown

def failsFirst : Bool :=
  env.firstCheck keptByBlock info.tx = .failed

def delayed (txInfo : List TxVerificationBatchInfo) : List Transaction :=
  (txInfo.filter fun info => env.firstCheck keptByBlock info.tx = .delayed).map tx

def failsSecond (assumedBad : Bool) (info : TxVerificationBatchInfo) : Bool :=
  info.result && info.tx.rctSignatures.type.isBatched &&
    (assumedBad || !env.verRctSemanticsSimple [info.tx])

/-- The batch when no check throws. -/
def verifyBatch (txInfo : List TxVerificationBatchInfo) : BatchVerdict :=
  let rvv := env.delayed keptByBlock txInfo
  let checked := txInfo.map (failIf (env.failsFirst keptByBlock))
  let marked := (txInfo.filter (env.failsFirst keptByBlock)).map txHash
  if rvv ≠ [] ∧ env.verRctSemanticsSimple rvv = false then
    let fails := env.failsSecond (rvv.length == 1)
    ⟨some false, checked.map (failIf fails), marked ++ (checked.filter fails).map txHash⟩
  else ⟨some true, checked, marked⟩

/-- `inHashArea` is `is_within_compiled_block_hash_area`. The first check that throws leaves the
function: the transactions behind it are not looked at, and no proof is verified. -/
def handleIncomingTxAccumulatedBatch (inHashArea : Bool) (txInfo : List TxVerificationBatchInfo) :
    BatchVerdict :=
  if keptByBlock && inHashArea then ⟨some true, txInfo, []⟩
  else if txInfo.any (env.throws keptByBlock) then
    let reached := txInfo.takeWhile fun info => !env.throws keptByBlock info
    let rest := txInfo.dropWhile fun info => !env.throws keptByBlock info
    ⟨none, reached.map (failIf (env.failsFirst keptByBlock)) ++ rest,
      (reached.filter (env.failsFirst keptByBlock)).map txHash⟩
  else env.verifyBatch keptByBlock txInfo

def failsProof : Bool :=
  decide (env.firstCheck keptByBlock info.tx = .delayed) && info.result &&
    !env.verRctSemanticsSimple [info.tx]

def fails : Bool :=
  env.failsFirst keptByBlock info || env.failsProof keptByBlock info

variable {env keptByBlock} {info : TxVerificationBatchInfo} {txInfo : List TxVerificationBatchInfo}

theorem isBatched_iff_delayed (quiet : env.throws keptByBlock info = false)
    (passed : env.failsFirst keptByBlock info = false) : info.tx.rctSignatures.type.isBatched =
      decide (env.firstCheck keptByBlock info.tx = .delayed) := by
  have parsed := info.parsed
  simp [throws] at quiet
  simp [failsFirst] at passed
  unfold firstCheck at quiet passed ⊢
  split at quiet
  · exact absurd rfl quiet
  · rename_i refused
    simp [refused] at passed
  · rename_i semantic
    simp [semantic] at passed ⊢
    unfold checkSignatureType at passed ⊢
    split_ifs at passed ⊢ with old
    · rw [parsed old]
      rfl
    · cases type : info.tx.rctSignatures.type with
      | null =>
        rw [type] at passed
        exact absurd rfl passed
      | full | simple | bulletproof | bulletproof2 | clsag | bulletproofPlus =>
        simp [type] at passed ⊢
        rw [SemanticCheck.of_eq passed]
        rfl

theorem failsProof_of_failsFirst (first : env.failsFirst keptByBlock info = true) :
    env.failsProof keptByBlock info = false := by
  have failed : env.firstCheck keptByBlock info.tx = .failed := of_decide_eq_true first
  simp [failsProof, failed]

theorem failsSecond_failIf (quiet : env.throws keptByBlock info = false) (assumedBad : Bool) :
    env.failsSecond assumedBad (failIf (env.failsFirst keptByBlock) info) =
      (decide (env.firstCheck keptByBlock info.tx = .delayed) && info.result &&
        (assumedBad || !env.verRctSemanticsSimple [info.tx])) := by
  rcases first : env.failsFirst keptByBlock info with _ | _
  · rw [failIf, if_neg (by simp [first]), failsSecond, isBatched_iff_delayed quiet first,
      Bool.and_comm info.result]
  · have failed : env.firstCheck keptByBlock info.tx = .failed := of_decide_eq_true first
    simp [failIf, first, failsSecond, fail, failed]

theorem mem_delayed (mem : info ∈ txInfo) (delays : env.firstCheck keptByBlock info.tx = .delayed) :
    info.tx ∈ env.delayed keptByBlock txInfo :=
  mem_map_of_mem (mem_filter.mpr ⟨mem, decide_eq_true delays⟩)

theorem failsSecond_eq_of_mem
    (bad : env.verRctSemanticsSimple (env.delayed keptByBlock txInfo) = false)
    (mem : info ∈ txInfo) (quiet : env.throws keptByBlock info = false) :
    env.failsSecond ((env.delayed keptByBlock txInfo).length == 1)
        (failIf (env.failsFirst keptByBlock) info) = env.failsProof keptByBlock info := by
  rw [failsSecond_failIf quiet, failsProof]
  by_cases delays : env.firstCheck keptByBlock info.tx = .delayed
  · rcases single : (env.delayed keptByBlock txInfo).length == 1 with _ | _
    · rw [Bool.false_or]
    · obtain ⟨only, listed⟩ := length_eq_one_iff.mp (beq_iff_eq.mp single)
      have same := mem_delayed mem delays
      rw [listed] at same bad
      rw [mem_singleton.mp same, bad]
      rfl
  · rw [decide_eq_false delays]
    rfl

section Exact

variable (exact : ∀ txs, env.verRctSemanticsSimple txs =
  txs.all fun tx => env.verRctSemanticsSimple [tx])

include exact

theorem verifyBatch_eq (quiet : ∀ info ∈ txInfo, env.throws keptByBlock info = false) :
    (env.verifyBatch keptByBlock txInfo).txInfo = txInfo.map (failIf (env.fails keptByBlock)) ∧
      (env.verifyBatch keptByBlock txInfo).marked.Perm
        ((txInfo.filter (env.fails keptByBlock)).map txHash) := by
  unfold verifyBatch
  by_cases bad : env.verRctSemanticsSimple (env.delayed keptByBlock txInfo) = false
  · have some_ : env.delayed keptByBlock txInfo ≠ [] := by
      intro empty
      rw [exact, empty] at bad
      cases bad
    dsimp only
    rw [if_pos ⟨some_, bad⟩]
    dsimp only
    constructor
    · rw [map_map]
      refine map_congr_left fun info mem => ?_
      have second := failsSecond_eq_of_mem bad mem (quiet info mem)
      rw [Function.comp, failIf, second, failIf, failIf, fails]
      rcases first : env.failsFirst keptByBlock info with _ | _
      · rfl
      · rw [failsProof_of_failsFirst first]
        rfl
    · have hash : txHash ∘ failIf (env.failsFirst keptByBlock) = txHash :=
        funext fun info => txHash_failIf _ info
      have second : (txInfo.filter (env.failsSecond ((env.delayed keptByBlock txInfo).length == 1) ∘
          failIf (env.failsFirst keptByBlock))) = txInfo.filter (env.failsProof keptByBlock) :=
        filter_congr fun info mem => failsSecond_eq_of_mem bad mem (quiet info mem)
      rw [filter_map, map_map, hash, second, ← map_append]
      refine (filter_append_perm_or ?_ txInfo).map _
      exact fun info first => failsProof_of_failsFirst first
  · rw [Bool.not_eq_false, exact, all_eq_true] at bad
    have same : ∀ info ∈ txInfo, env.fails keptByBlock info = env.failsFirst keptByBlock info := by
      intro info mem
      by_cases delays : env.firstCheck keptByBlock info.tx = .delayed
      · simp [fails, failsProof, bad _ (mem_delayed mem delays)]
      · simp [fails, failsProof, delays]
    have good : ¬(env.delayed keptByBlock txInfo ≠ [] ∧
        env.verRctSemanticsSimple (env.delayed keptByBlock txInfo) = false) := by
      rw [exact, all_eq_true.mpr bad]
      simp
    dsimp only
    rw [if_neg good]
    constructor
    · exact map_congr_left fun info mem => by rw [failIf, failIf, same info mem]
    · rw [filter_congr same]

theorem handleIncomingTxAccumulatedBatch_single {inHashArea : Bool}
    (checks : (keptByBlock && inHashArea) = false) (info : TxVerificationBatchInfo) :
    (env.handleIncomingTxAccumulatedBatch keptByBlock inHashArea [info]).txInfo =
        [failIf (env.fails keptByBlock) info] ∧
      (env.handleIncomingTxAccumulatedBatch keptByBlock inHashArea [info]).marked.Perm
        (([info].filter (env.fails keptByBlock)).map txHash) := by
  rw [handleIncomingTxAccumulatedBatch, checks]
  cases thrown : env.throws keptByBlock info with
  | true =>
    have check : env.firstCheck keptByBlock info.tx = .thrown := of_decide_eq_true thrown
    simp [thrown, failIf, fails, failsFirst, failsProof, check]
  | false =>
    have alone := @verifyBatch_eq env keptByBlock [info] exact (by simpa using thrown)
    simpa [thrown] using alone

omit exact in
/-- Where an exception leaves the loop, only marks that are due anyway may be missing. -/
theorem interrupted_iff (reached rest : List TxVerificationBatchInfo) :
    (reached.map (failIf (env.failsFirst keptByBlock)) ++ rest =
        (reached ++ rest).map (failIf (env.fails keptByBlock)) ∧
      ((reached.filter (env.failsFirst keptByBlock)).map txHash).Perm
        (((reached ++ rest).filter (env.fails keptByBlock)).map txHash)) ↔
      (∀ info ∈ reached, env.failsProof keptByBlock info = false) ∧
        ∀ info ∈ rest, env.fails keptByBlock info = false := by
  constructor
  · rintro ⟨-, marked⟩
    have marks := marked.length_eq
    have both := (filter_append_perm_or (p := env.failsFirst keptByBlock)
      (q := env.failsProof keptByBlock) (fun _ => failsProof_of_failsFirst) reached).length_eq
    change _ = (reached.filter (env.fails keptByBlock)).length at both
    simp only [length_map, filter_append, length_append] at marks both
    have proofs : reached.filter (env.failsProof keptByBlock) = [] :=
      length_eq_zero_iff.mp (by omega)
    have behind : rest.filter (env.fails keptByBlock) = [] := length_eq_zero_iff.mp (by omega)
    simp only [filter_eq_nil_iff, Bool.not_eq_true] at proofs behind
    exact ⟨proofs, behind⟩
  · rintro ⟨proofs, behind⟩
    have same : ∀ info ∈ reached, env.fails keptByBlock info = env.failsFirst keptByBlock info :=
      fun info mem => by rw [fails, proofs info mem, Bool.or_false]
    constructor
    · rw [map_append]
      congr 1
      · exact map_congr_left fun info mem => by rw [failIf, failIf, same info mem]
      · refine (map_id' rest).symm.trans (map_congr_left fun info mem => ?_)
        simp [failIf, behind info mem]
    · have none : rest.filter (env.fails keptByBlock) = [] :=
        filter_eq_nil_iff.mpr (by simpa using behind)
      rw [filter_append, filter_congr same, none, append_nil]

/-- Each transaction of a batch is judged as it is alone exactly when no check throws, or when the
transactions before the first that throws verify and those behind it have nothing to be marked for.
-/
theorem handleIncomingTxAccumulatedBatch_alone_iff (inHashArea : Bool)
    (txInfo : List TxVerificationBatchInfo) :
    let batch := env.handleIncomingTxAccumulatedBatch keptByBlock inHashArea
    ((batch txInfo).txInfo = txInfo.flatMap (fun info => (batch [info]).txInfo) ∧
      (batch txInfo).marked.Perm (txInfo.flatMap fun info => (batch [info]).marked)) ↔
      (keptByBlock && inHashArea) = true ∨ txInfo.any (env.throws keptByBlock) = false ∨
        (∀ info ∈ txInfo.takeWhile fun info => !env.throws keptByBlock info,
          env.failsProof keptByBlock info = false) ∧
        ∀ info ∈ txInfo.dropWhile fun info => !env.throws keptByBlock info,
          env.fails keptByBlock info = false := by
  intro batch
  cases checks : keptByBlock && inHashArea with
  | true => simp [batch, handleIncomingTxAccumulatedBatch, checks]
  | false =>
    have single := handleIncomingTxAccumulatedBatch_single exact checks
    have alone : (txInfo.flatMap fun info => (batch [info]).txInfo) =
        txInfo.map (failIf (env.fails keptByBlock)) := by
      simp [batch, single]
      exact map_eq_flatMap.symm
    have marks : (txInfo.flatMap fun info => (batch [info]).marked).Perm
        ((txInfo.filter (env.fails keptByBlock)).map txHash) := by
      refine (List.Perm.flatMap_left _ fun info _ => (single info).2).trans ?_
      rw [← map_flatMap, ← filter_flatMap, ← map_eq_flatMap, map_id']
    rw [alone, marks.congr_right]
    simp only [batch, handleIncomingTxAccumulatedBatch, checks]
    cases thrown : txInfo.any (env.throws keptByBlock) with
    | false =>
      have quiet : ∀ info ∈ txInfo, env.throws keptByBlock info = false := by
        simpa using thrown
      simpa using verifyBatch_eq exact quiet
    | true =>
      have split := takeWhile_append_dropWhile (l := txInfo)
        (p := fun info => !env.throws keptByBlock info)
      simp only [Bool.false_eq_true, Bool.true_eq_false, if_false, if_true, false_or]
      generalize txInfo.takeWhile _ = reached at split ⊢
      generalize txInfo.dropWhile _ = rest at split ⊢
      subst split
      exact interrupted_iff reached rest

end Exact

/-- The key image 9 is no point. -/
def sampleSemanticEnv : SemanticEnv where
  renv := { validRingEnv with
    keyImageInDomain := fun keyImage => if keyImage = 9 then none else some true }
  senv := Lmdb.plainStorageEnv
  hfVersion := 16
  weightLimit := 300000
  verRct := fun _ => true
  verRctSemanticsSimple := fun txs => txs.all fun tx => tx.unlockTime = 0
  bulletproofs := fun _ => []
  bulletproofsPlus := fun _ => [2]

def sampleInfo (keyImage : KeyImage) (unlockTime : Nat) : TxVerificationBatchInfo :=
  ⟨ringSpend (1 :: List.replicate 15 1) keyImage 2 unlockTime, keyImage, false, true,
    fun old => absurd old (Nat.lt_irrefl 2)⟩

theorem sampleBatch_alone :
    let batch := sampleSemanticEnv.handleIncomingTxAccumulatedBatch false false
    (batch [sampleInfo 7 0, sampleInfo 8 5]).marked.Perm
      ([sampleInfo 7 0, sampleInfo 8 5].flatMap fun info => (batch [info]).marked) :=
  ((handleIncomingTxAccumulatedBatch_alone_iff (fun txs => by simp [sampleSemanticEnv]) false _).mpr
    (.inr (.inl (by decide)))).2

/-- The second transaction is marked alone, but not behind one that throws. -/
theorem thrownBatch_unmarked :
    let batch := sampleSemanticEnv.handleIncomingTxAccumulatedBatch false false
    (batch [sampleInfo 8 5]).marked = [8] ∧ (batch [sampleInfo 8 5]).txInfo.map result = [false] ∧
      (batch [sampleInfo 9 0, sampleInfo 8 5]).ret = none ∧
      (batch [sampleInfo 9 0, sampleInfo 8 5]).marked = [] ∧
      (batch [sampleInfo 9 0, sampleInfo 8 5]).txInfo.map result = [true, true] := by
  decide

end SemanticEnv

/-! ## Cached verification of ring signatures -/

open TxExtra

structure CtKey where
  dest : Pod
  mask : Pod
  deriving DecidableEq

/-- `rct::ctkeyM`: the rings of the inputs. -/
abbrev CtKeyM := List (List CtKey)

def rctTypeFull : Nat := 1

def rctTypeSimple : Nat := 2

def rctTypeClsag : Nat := 5

def rctTypeBulletproofPlus : Nat := 6

def isRctClsag (type : Nat) : Bool :=
  type == rctTypeClsag || type == rctTypeBulletproofPlus

structure MgSig (Rest : Type) where
  ii : List Pod
  rest : Rest

structure Clsag (Rest : Type) where
  i : Pod
  rest : Rest

/-- The parts that are expanded or compared; all else is in `rest`. -/
structure RctTransaction (Rest : Type) where
  version : Nat
  vin : List TxIn
  pruned : Bool
  type : Nat
  message : Pod
  mixRing : CtKeyM
  mgs : List (MgSig Rest)
  clsags : List (Clsag Rest)
  rest : Rest

structure RctFunctions (Rest : Type) where
  ki2rct : KeyImage → Pod
  getTransactionHash : RctTransaction Rest → Pod
  getTransactionPrefixHash : RctTransaction Rest → Pod
  getBlobHash : Bytes → Pod
  verRctNonSemanticsSimple : RctTransaction Rest → Bool

section Expand

variable {Rest : Type}

def keyImages (functions : RctFunctions Rest) (vin : List TxIn) : Option (List Pod) :=
  vin.mapM fun input => match input with
    | .toKey _ _ keyImage => some (functions.ki2rct keyImage)
    | _ => none

/-- The expanded rings, column by column for the full type; `none` where the
expansion fails. -/
def expandMixRing (type : Nat) (pubkeys : CtKeyM) : Option CtKeyM :=
  match pubkeys with
  | [] => none
  | first :: _ =>
    if first = [] then none
    else if type = rctTypeFull then
      if pubkeys.all fun ring => decide (ring.length ≤ first.length) then
        some ((range first.length).map fun m => pubkeys.filterMap fun ring => ring[m]?)
      else none
    else if rctTypeSimple ≤ type ∧ type ≤ rctTypeBulletproofPlus then some pubkeys
    else none

/-- `expand_transaction_2`: `none` where it throws, and no transaction where it
returns false. -/
def expandTransaction2 [Inhabited Rest] (functions : RctFunctions Rest)
    (tx : RctTransaction Rest) (txPrefixHash : Pod) (pubkeys : CtKeyM) :
    Option (Option (RctTransaction Rest)) :=
  if tx.version ≠ 2 then some none
  else
    match expandMixRing tx.type pubkeys with
    | none => some none
    | some mixRing =>
      let expanded := { tx with message := txPrefixHash, mixRing := mixRing }
      if tx.pruned then some (some expanded)
      else if tx.type = rctTypeFull then
        (keyImages functions tx.vin).map fun images => some { expanded with
            mgs := [⟨images, (tx.mgs.head?.map MgSig.rest).getD default⟩] }
      else if isRctClsag tx.type then
        if tx.clsags.length ≠ tx.vin.length then some none
        else
          (keyImages functions tx.vin).map fun images => some { expanded with
              clsags := tx.clsags.zipWith (fun signature image => ⟨image, signature.rest⟩) images }
      else if tx.mgs.length ≠ tx.vin.length then some none
      else
        (keyImages functions tx.vin).map fun images => some { expanded with
            mgs := tx.mgs.zipWith (fun signature image => ⟨[image], signature.rest⟩) images }

def keyImagesMatch (tx : RctTransaction Rest) (images : List Pod) : Bool :=
  if isRctClsag tx.type then (tx.clsags.zip images).all fun pair => decide (pair.1.i = pair.2)
  else (tx.mgs.zip images).all fun pair => decide (pair.1.ii.head? = some pair.2)

def expandTxAndVerRctNonSem [Inhabited Rest] (functions : RctFunctions Rest)
    (tx : RctTransaction Rest) (mixRing : CtKeyM) : Option Bool :=
  if tx.pruned then some false
  else
    match expandTransaction2 functions tx (functions.getTransactionPrefixHash tx) mixRing with
    | none => none
    | some none => some false
    | some (some rv) =>
      if rv.mixRing ≠ mixRing then some false
      else
        let nSigs := if isRctClsag rv.type then rv.clsags.length
          else rv.mgs.length
        if nSigs ≠ rv.vin.length then some false
        else
          (keyImages functions rv.vin).map fun images =>
            keyImagesMatch rv images && functions.verRctNonSemanticsSimple rv

end Expand

/-! ## The hash of a transaction and its rings -/

def serializeCtKey (key : CtKey) : Bytes :=
  key.dest.val ++ key.mask.val

def serializeVector {α : Type} (serialize : α → Bytes) (entries : List α) : Bytes :=
  writeVarint entries.length ++ entries.flatMap serialize

def serializeMixRing (mixRing : CtKeyM) : Bytes :=
  serializeVector (serializeVector serializeCtKey) mixRing

def hashKeyTxHashAndMixRing : Bytes :=
  "txhash_and_mixring".toList.map fun char => char.toNat.toUInt8

def txMixRingBlob {Rest : Type} (functions : RctFunctions Rest)
    (tx : RctTransaction Rest) (mixRing : CtKeyM) : Bytes :=
  hashKeyTxHashAndMixRing ++ ((functions.getTransactionHash tx).val ++ serializeMixRing mixRing)

def calcTxMixRingHash {Rest : Type} (functions : RctFunctions Rest)
    (tx : RctTransaction Rest) (mixRing : CtKeyM) : Pod :=
  functions.getBlobHash (txMixRingBlob functions tx mixRing)

theorem writeVarint_prefixFree : PrefixFree writeVarint := by
  have byte : ∀ {small : Nat}, small < 256 → small.toUInt8.toNat = small := by
    intro small bounded
    simpa using bounded
  intro first
  induction first using Nat.strongRecOn with
  | ind first ih =>
    intro second rest otherRest eq
    rcases lt_or_ge first 128 with last | more
    · rcases lt_or_ge second 128 with otherLast | otherMore
      · rw [writeVarint_of_lt last, writeVarint_of_lt otherLast] at eq
        obtain ⟨same, after⟩ := cons.inj eq
        have bytes := congrArg UInt8.toNat same
        rw [byte (by omega), byte (by omega)] at bytes
        exact ⟨bytes, after⟩
      · rw [writeVarint_of_lt last, writeVarint_of_le otherMore] at eq
        have bytes := congrArg UInt8.toNat (cons.inj eq).1
        rw [byte (by omega), byte (by omega)] at bytes
        omega
    · rcases lt_or_ge second 128 with otherLast | otherMore
      · rw [writeVarint_of_le more, writeVarint_of_lt otherLast] at eq
        have bytes := congrArg UInt8.toNat (cons.inj eq).1
        rw [byte (by omega), byte (by omega)] at bytes
        omega
      · rw [writeVarint_of_le more, writeVarint_of_le otherMore] at eq
        obtain ⟨same, later⟩ := cons.inj eq
        have bytes := congrArg UInt8.toNat same
        rw [byte (by omega), byte (by omega)] at bytes
        obtain ⟨quotient, after⟩ := ih _ (by omega) later
        exact ⟨by omega, after⟩

theorem serializeCtKey_prefixFree : PrefixFree serializeCtKey := by
  have length : ∀ key, (serializeCtKey key).length = 64 := by
    intro key
    rw [serializeCtKey, length_append, key.dest.property, key.mask.property]
  refine .of_length length ?_
  rintro ⟨dest, mask⟩ ⟨otherDest, otherMask⟩ eq
  obtain ⟨dests, masks⟩ := append_inj eq (dest.property.trans otherDest.property.symm)
  exact (CtKey.mk.injEq ..).mpr ⟨Subtype.ext dests, Subtype.ext masks⟩

theorem serializeMixRing_prefixFree : PrefixFree serializeMixRing :=
  writeVarint_prefixFree.counted (writeVarint_prefixFree.counted serializeCtKey_prefixFree)

theorem txMixRingBlob_inj {Rest : Type} {functions : RctFunctions Rest}
    {tx other : RctTransaction Rest} {mixRing otherRing : CtKeyM}
    (eq : txMixRingBlob functions tx mixRing = txMixRingBlob functions other otherRing) :
    functions.getTransactionHash tx = functions.getTransactionHash other ∧ mixRing = otherRing := by
  obtain ⟨hashes, rings⟩ := append_inj (append_cancel_left eq)
    ((functions.getTransactionHash tx).property.trans
      (functions.getTransactionHash other).property.symm)
  exact ⟨Subtype.ext hashes, serializeMixRing_prefixFree.injective rings⟩

/-! ## The cached check -/

section Cached

variable {Rest : Type} [Inhabited Rest]

def rctVerCacheSize : Nat := 8192

abbrev RctVerCache := RotatingCache Pod

def emptyRctVerCache : RctVerCache :=
  .empty ⟨replicate 32 (UInt8.ofNat 0), length_replicate⟩

variable (functions : RctFunctions Rest)

def verRctNonSemanticsSimpleCached (tx : RctTransaction Rest) (mixRing : CtKeyM)
    (cache : RctVerCache)
    (rctTypeToCache : Nat) : Option Bool × RctVerCache :=
  if 2 < tx.version ∨ rctTypeBulletproofPlus < tx.type then (some false, cache)
  else if tx.type ≠ rctTypeToCache then (expandTxAndVerRctNonSem functions tx mixRing, cache)
  else
    let txMixRingHash := calcTxMixRingHash functions tx mixRing
    if cache.has txMixRingHash then (some true, cache)
    else
      match expandTxAndVerRctNonSem functions tx mixRing with
      | some true => (some true, cache.add rctVerCacheSize txMixRingHash)
      | result => (result, cache)

structure RctCall (Rest : Type) where
  tx : RctTransaction Rest
  mixRing : CtKeyM
  rctTypeToCache : Nat

def runCached (functions : RctFunctions Rest) :
    RctVerCache → List (RctCall Rest) → List (Option Bool)
  | _, [] => []
  | cache, call :: rest =>
    let result := verRctNonSemanticsSimpleCached functions call.tx call.mixRing
      cache call.rctTypeToCache
    result.1 :: runCached functions result.2 rest

namespace RctCall

def Ordinary (call : RctCall Rest) : Prop :=
  call.tx.pruned = false ∧ call.tx.version ≤ 2 ∧ call.tx.type ≤ rctTypeBulletproofPlus

def verify (call : RctCall Rest) : Option Bool :=
  expandTxAndVerRctNonSem functions call.tx call.mixRing

end RctCall

/-- No two transactions, and no two blobs of a transaction and its rings, share a hash. -/
structure RctCollisionFree (functions : RctFunctions Rest)
    (calls : List (RctCall Rest)) : Prop where
  transactions : ∀ first ∈ calls, ∀ second ∈ calls, functions.getTransactionHash first.tx =
      functions.getTransactionHash second.tx → first.tx = second.tx
  blobs : ∀ first ∈ calls, ∀ second ∈ calls,
    functions.getBlobHash (txMixRingBlob functions first.tx first.mixRing) =
        functions.getBlobHash (txMixRingBlob functions second.tx second.mixRing) →
      txMixRingBlob functions first.tx first.mixRing =
        txMixRingBlob functions second.tx second.mixRing

def CacheSound (calls : List (RctCall Rest)) (cache : RctVerCache) : Prop :=
  ∀ hash, cache.has hash = true → ∃ call ∈ calls,
      calcTxMixRingHash functions call.tx call.mixRing = hash ∧ call.verify functions = some true

variable {functions : RctFunctions Rest} {calls : List (RctCall Rest)} {cache : RctVerCache}

theorem RctCollisionFree.verify_eq (free : RctCollisionFree functions calls)
    {first second : RctCall Rest} (firstMember : first ∈ calls) (secondMember : second ∈ calls)
    (eq : calcTxMixRingHash functions first.tx first.mixRing =
      calcTxMixRingHash functions second.tx second.mixRing) :
    first.verify functions = second.verify functions := by
  obtain ⟨hashes, rings⟩ :=
    txMixRingBlob_inj (free.blobs first firstMember second secondMember eq)
  rw [RctCall.verify, RctCall.verify,
    free.transactions first firstMember second secondMember hashes, rings]

theorem cacheSound_empty : CacheSound functions calls emptyRctVerCache := by
  intro hash held
  rw [emptyRctVerCache] at held
  cases held

theorem CacheSound.call (sound : CacheSound functions calls cache)
    (free : RctCollisionFree functions calls) {call : RctCall Rest}
    (mem : call ∈ calls) (ordinary : call.Ordinary) :
    let result := verRctNonSemanticsSimpleCached functions call.tx call.mixRing
      cache call.rctTypeToCache
    result.1 = call.verify functions ∧ CacheSound functions calls result.2 := by
  have known : ¬(2 < call.tx.version ∨ rctTypeBulletproofPlus < call.tx.type) := by
    obtain ⟨-, version, type⟩ := ordinary
    omega
  unfold verRctNonSemanticsSimpleCached
  dsimp only
  split_ifs with uncached hit
  · exact ⟨rfl, sound⟩
  · obtain ⟨prev, earlierMember, sameHash, passed⟩ := sound _ hit
    have same := free.verify_eq earlierMember mem sameHash
    exact ⟨(same.symm.trans passed).symm, sound⟩
  · cases result : expandTxAndVerRctNonSem functions call.tx call.mixRing with
    | none => exact ⟨result.symm, sound⟩
    | some passed =>
      cases passed with
      | false => exact ⟨result.symm, sound⟩
      | true =>
        refine ⟨result.symm, ?_⟩
        intro hash held
        rcases RotatingCache.has_add held with rfl | before
        · exact ⟨call, mem, rfl, result⟩
        · exact sound hash before

theorem runCached_eq_of_sound (sound : CacheSound functions calls cache)
    (free : RctCollisionFree functions calls) {later : List (RctCall Rest)}
    (among : ∀ call ∈ later, call ∈ calls) (ordinary : ∀ call ∈ later, call.Ordinary) :
    runCached functions cache later = later.map fun call => call.verify functions := by
  induction later generalizing cache with
  | nil => rfl
  | cons call rest ih =>
    rw [forall_mem_cons] at among ordinary
    obtain ⟨result, kept⟩ := sound.call free among.1 ordinary.1
    rw [runCached, map_cons, result, ih kept among.2 ordinary.2]

/-- While the hashes of the calls do not collide, the cache answers every call as a verification
without it would. -/
theorem runCached_eq_verify (calls : List (RctCall Rest)) (ordinary : ∀ call ∈ calls, call.Ordinary)
    (free : RctCollisionFree functions calls) :
    runCached functions emptyRctVerCache calls = calls.map fun call =>
        expandTxAndVerRctNonSem functions call.tx call.mixRing :=
  runCached_eq_of_sound cacheSound_empty free (fun _ member => member) ordinary

end Cached

def podOf (byte : UInt8) : Pod :=
  ⟨replicate 32 byte, length_replicate⟩

def singleFunctions : RctFunctions Unit where
  ki2rct := fun _ => podOf 1
  getTransactionHash := fun _ => podOf 2
  getTransactionPrefixHash := fun _ => podOf 3
  getBlobHash := fun _ => podOf 4
  verRctNonSemanticsSimple := fun _ => true

def singleCall : RctCall Unit where
  tx :=
    { version := 2
      vin := [.toKey 0 [1] 7]
      pruned := false
      type := rctTypeBulletproofPlus
      message := podOf 0
      mixRing := []
      mgs := []
      clsags := [⟨podOf 0, ()⟩]
      rest := () }
  mixRing := [[⟨podOf 5, podOf 6⟩]]
  rctTypeToCache := rctTypeBulletproofPlus

theorem singleCall_cached : (emptyRctVerCache.add rctVerCacheSize (calcTxMixRingHash singleFunctions
      singleCall.tx singleCall.mixRing)).has (podOf 4) = true ∧
    runCached singleFunctions emptyRctVerCache [singleCall, singleCall] =
      [some true, some true] := by
  have only : ∀ call ∈ [singleCall, singleCall], call = singleCall := by simp
  refine ⟨by decide +kernel, (runCached_eq_verify [singleCall, singleCall] ?_
    ⟨?_, ?_⟩).trans (by decide +kernel)⟩
  · intro call member
    rw [only call member]
    exact ⟨rfl, by decide, by decide⟩
  · intro first firstMember second secondMember _
    rw [only first firstMember, only second secondMember]
  · intro first firstMember second secondMember _
    rw [only first firstMember, only second secondMember]

end LodeChain

import LodeChain.PoolRuns

/-!
# The index of key images over a run

`remove_transaction_keyimages` stops at an input it cannot find, so a repeated key image leaves
entries behind.
-/

namespace LodeChain

namespace TxMemoryPool

open List

def spenders (pool : TxMemoryPool) (keyImage : KeyImage) : List Hash :=
  (pool.spentKeyImages.lookup keyImage).getD []

def inputImages (inputs : List TxIn) : List KeyImage :=
  inputs.filterMap fun
    | .toKey _ _ keyImage => some keyImage
    | _ => none

@[simp]
theorem inputImages_toKey (amount : UInt64) (keyOffsets : List Nat)
    (keyImage : KeyImage) (rest : List TxIn) :
    inputImages (.toKey amount keyOffsets keyImage :: rest) = keyImage :: inputImages rest :=
  rfl

variable {pool : TxMemoryPool} {tx : Transaction} {txid : Hash}

def insertSpender (txid : Hash) (ids : List Hash) : List Hash :=
  if txid ∈ ids then ids else txid :: ids

variable {ids : List Hash} {inputs : List TxIn} {keyImage : KeyImage}

@[simp]
theorem mem_insertSpender {id : Hash} : id ∈ insertSpender txid ids ↔ id = txid ∨ id ∈ ids := by
  unfold insertSpender
  split
  · rename_i present
    constructor
    · exact .inr
    · rintro (rfl | member)
      · exact present
      · exact member
  · exact mem_cons

theorem nodup_insertSpender (distinct : ids.Nodup) : (insertSpender txid ids).Nodup := by
  unfold insertSpender
  split
  · exact distinct
  · rename_i absent
    exact nodup_cons.mpr ⟨absent, distinct⟩

def indexImage (pool : TxMemoryPool) (txid : Hash) (keyImage : KeyImage) : TxMemoryPool :=
  { pool with
    spentKeyImages := pool.spentKeyImages.insert keyImage
      (insertSpender txid (pool.spenders keyImage)) }

theorem spenders_indexImage (pool : TxMemoryPool) (txid : Hash) (keyImage other : KeyImage) :
    (pool.indexImage txid keyImage).spenders other =
      if other = keyImage then insertSpender txid (pool.spenders other)
      else pool.spenders other := by
  unfold spenders indexImage
  by_cases same : other = keyImage
  · subst same
    simp [spenders]
  · simp [same]

theorem insertKeyImagesFrom_toKey (txRelay : RelayMethod) (amount : UInt64)
    (offsets : List Nat) (keyImage : KeyImage) (rest : List TxIn) :
    pool.insertKeyImagesFrom txid txRelay (.toKey amount offsets keyImage :: rest) =
      if txRelay ≠ .block ∧ ¬ (pool.spenders keyImage = [] ∨ pool.spenders keyImage = [txid]) then
        (pool, false)
      else if txid ∈ pool.spenders keyImage ∧ pool.txMatchesLegacy txid then
        (pool.indexImage txid keyImage, false)
      else
        (pool.indexImage txid keyImage).insertKeyImagesFrom txid txRelay
          rest :=
  rfl

/-! ## Insertion -/

theorem spenders_insertKeyImagesFrom {txRelay : RelayMethod}
    {inputs : List TxIn} {indexed : TxMemoryPool}
    (inserted : pool.insertKeyImagesFrom txid txRelay inputs = (indexed, true))
    (keyImage : KeyImage) (id : Hash) :
    id ∈ indexed.spenders keyImage ↔ id ∈ pool.spenders keyImage ∨
        (id = txid ∧ keyImage ∈ inputImages inputs) := by
  induction inputs generalizing pool with
  | nil =>
    obtain ⟨rfl, -⟩ := Prod.mk.inj inserted
    simp [inputImages, spenders]
  | cons input rest ih =>
    cases input with
    | toKey amount keyOffsets image =>
      rw [insertKeyImagesFrom_toKey] at inserted
      split at inserted
      · simp at inserted
      · split at inserted
        · simp at inserted
        · rw [ih inserted, spenders_indexImage, inputImages_toKey]
          by_cases same : keyImage = image
          · rw [if_pos same, mem_insertSpender, mem_cons]
            tauto
          · rw [if_neg same, mem_cons]
            tauto
    | gen | toScript | toScriptHash => simp [insertKeyImagesFrom] at inserted

structure WellIndexed (pool : TxMemoryPool) : Prop where
  nonempty : ∀ keyImage, pool.spentKeyImages.lookup keyImage ≠ some []
  nodup : ∀ keyImage, (pool.spenders keyImage).Nodup

theorem WellIndexed.indexImage (indexed : pool.WellIndexed) (txid : Hash) (keyImage : KeyImage) :
    (pool.indexImage txid keyImage).WellIndexed := by
  constructor
  · intro other
    by_cases same : other = keyImage
    · subst same
      have ne : insertSpender txid (pool.spenders other) ≠ [] := by
        intro empty
        have mem : txid ∈ insertSpender txid (pool.spenders other) :=
          mem_insertSpender.mpr (.inl rfl)
        rw [empty] at mem
        exact not_mem_nil mem
      simpa [TxMemoryPool.indexImage] using ne
    · simpa [TxMemoryPool.indexImage, same] using indexed.nonempty other
  · intro other
    rw [spenders_indexImage]
    split
    · exact nodup_insertSpender (indexed.nodup other)
    · exact indexed.nodup other

theorem WellIndexed.insertKeyImagesFrom (wellIndexed : pool.WellIndexed)
    (txRelay : RelayMethod) (inputs : List TxIn) :
    (pool.insertKeyImagesFrom txid txRelay inputs).1.WellIndexed := by
  induction inputs generalizing pool with
  | nil => exact ⟨wellIndexed.nonempty, wellIndexed.nodup⟩
  | cons input rest ih =>
    cases input with
    | toKey amount keyOffsets keyImage =>
      rw [insertKeyImagesFrom_toKey]
      split
      · exact wellIndexed
      · split
        · exact wellIndexed.indexImage txid keyImage
        · exact ih (wellIndexed.indexImage txid keyImage)
    | gen | toScript | toScriptHash => exact wellIndexed

theorem insertKeyImagesFrom_ok {txRelay : RelayMethod}
    (typed : inputs.all TxIn.isToKey) (hidden : pool.txMatchesLegacy txid = false)
    (own : txRelay ≠ .block → ∀ keyImage ∈ inputImages inputs,
      pool.spenders keyImage = [] ∨ pool.spenders keyImage = [txid]) :
    (pool.insertKeyImagesFrom txid txRelay inputs).2 = true := by
  induction inputs generalizing pool with
  | nil => rfl
  | cons input rest ih =>
    cases input with
    | toKey amount keyOffsets keyImage =>
      have restTyped : rest.all TxIn.isToKey := by simpa [TxIn.isToKey] using typed
      rw [insertKeyImagesFrom_toKey, if_neg, if_neg (by simp [hidden])]
      · refine ih restTyped hidden ?_
        intro ne other mem
        rw [spenders_indexImage]
        rcases own ne other (mem_cons_of_mem _ mem) with
          empty | single
        · rw [empty]
          split
          · exact .inr rfl
          · exact .inl rfl
        · rw [single]
          split
          · exact .inr (by simp [insertSpender])
          · exact .inr rfl
      · rintro ⟨ne, foreign⟩
        exact foreign (own ne keyImage mem_cons_self)
    | gen | toScript | toScriptHash => simp [TxIn.isToKey] at typed

theorem spenders_of_unspent (unspent : pool.haveTxKeyimgesAsSpent tx txid = false)
    (mem : keyImage ∈ tx.keyImages) : pool.spenders keyImage = [] ∨
      (pool.spenders keyImage = [txid] ∧ pool.txMatchesLegacy txid = false) := by
  obtain ⟨input, lt, same⟩ := mem_filterMap.mp mem
  have each := any_eq_false.mp unspent input lt
  cases input with
  | toKey amount keyOffsets image =>
    obtain rfl : image = keyImage := Option.some.inj same
    simp only [haveTxKeyimgAsSpent] at each
    unfold spenders
    generalize pool.spentKeyImages.lookup image = found at each ⊢
    match found with
    | none | some [] => exact .inl rfl
    | some [spender] =>
      dsimp only at each
      split at each
      · simp at each
      · rename_i own
        rw [not_not] at own
        subst own
        exact .inr ⟨rfl, by simpa using each⟩
    | some (first :: second :: others) => simp at each
  | gen | toScript | toScriptHash => simp at same

/-! ## Removal -/

def unindexImage (pool : TxMemoryPool) (txid : Hash) (keyImage : KeyImage) : TxMemoryPool :=
  { pool with
    spentKeyImages := if (pool.spenders keyImage).erase txid = [] then
        pool.spentKeyImages.erase keyImage
      else pool.spentKeyImages.insert keyImage ((pool.spenders keyImage).erase txid) }

theorem spenders_unindexImage (pool : TxMemoryPool) (txid : Hash) (keyImage other : KeyImage) :
    (pool.unindexImage txid keyImage).spenders other =
      if other = keyImage then (pool.spenders other).erase txid
      else pool.spenders other := by
  unfold unindexImage
  by_cases same : other = keyImage
  · subst same
    by_cases empty : (pool.spenders other).erase txid = []
    · rw [empty]
      simp [spenders]
    · rw [if_neg empty]
      simp [spenders]
  · rw [if_neg same]
    unfold spenders
    split <;> simp [same]

theorem removeTransactionKeyimagesFrom_toKey {amount : UInt64} {offsets : List Nat}
    {rest : List TxIn} (present : txid ∈ pool.spenders keyImage) :
    pool.removeTransactionKeyimagesFrom txid (.toKey amount offsets keyImage :: rest) =
      (pool.unindexImage txid keyImage).removeTransactionKeyimagesFrom txid rest := by
  unfold unindexImage
  rw [removeTransactionKeyimagesFrom]
  unfold spenders at present ⊢
  rcases found : pool.spentKeyImages.lookup keyImage with _ | ids
  · rw [found] at present
    simp at present
  · rw [found, Option.getD_some] at present
    dsimp only [Option.getD_some]
    rw [if_pos present]

theorem spenders_removeTransactionKeyimagesFrom
    (typed : inputs.all TxIn.isToKey) (distinct : (inputImages inputs).Nodup)
    (present : ∀ keyImage ∈ inputImages inputs, txid ∈ pool.spenders keyImage)
    (keyImage : KeyImage) :
    (pool.removeTransactionKeyimagesFrom txid inputs).spenders keyImage =
      if keyImage ∈ inputImages inputs then (pool.spenders keyImage).erase txid
      else
        pool.spenders keyImage := by
  induction inputs generalizing pool with
  | nil => simp [inputImages, removeTransactionKeyimagesFrom, spenders]
  | cons input rest ih =>
    cases input with
    | toKey amount keyOffsets image =>
      have restTyped : rest.all TxIn.isToKey := by simpa [TxIn.isToKey] using typed
      rw [inputImages_toKey] at distinct
      obtain ⟨fresh, restDistinct⟩ := nodup_cons.mp distinct
      have restPresent : ∀ other ∈ inputImages rest,
          txid ∈ (pool.unindexImage txid image).spenders other := by
        intro other mem
        have ne : other ≠ image := fun same => fresh (same ▸ mem)
        rw [spenders_unindexImage, if_neg ne]
        exact present other (mem_cons_of_mem _ mem)
      rw [removeTransactionKeyimagesFrom_toKey (present image mem_cons_self),
        ih restTyped restDistinct restPresent, spenders_unindexImage,
        inputImages_toKey]
      by_cases same : keyImage = image
      · subst same
        rw [if_neg fresh, if_pos rfl, if_pos mem_cons_self]
      · rw [if_neg same]
        simp [same]
    | gen | toScript | toScriptHash => simp [TxIn.isToKey] at typed

theorem WellIndexed.unindexImage (indexed : pool.WellIndexed) (txid : Hash) (keyImage : KeyImage) :
    (pool.unindexImage txid keyImage).WellIndexed := by
  constructor
  · intro other
    unfold TxMemoryPool.unindexImage
    by_cases same : other = keyImage
    · subst same
      split
      · simp
      · rename_i ne
        simpa using ne
    · split <;> simpa [same] using indexed.nonempty other
  · intro other
    rw [spenders_unindexImage]
    split
    · exact (indexed.nodup other).erase txid
    · exact indexed.nodup other

theorem WellIndexed.removeTransactionKeyimagesFrom
    (indexed : pool.WellIndexed) (txid : Hash) (inputs : List TxIn) :
    (pool.removeTransactionKeyimagesFrom txid inputs).WellIndexed := by
  induction inputs generalizing pool with
  | nil => exact ⟨indexed.nonempty, indexed.nodup⟩
  | cons input rest ih =>
    cases input with
    | toKey amount keyOffsets keyImage =>
      by_cases present : txid ∈ pool.spenders keyImage
      · rw [removeTransactionKeyimagesFrom_toKey present]
        exact ih (indexed.unindexImage txid keyImage)
      · unfold spenders at present
        rw [TxMemoryPool.removeTransactionKeyimagesFrom]
        rcases found : pool.spentKeyImages.lookup keyImage with _ | ids
        · exact indexed
        · rw [found, Option.getD_some] at present
          dsimp only
          rw [if_neg present]
          exact indexed
    | gen | toScript | toScriptHash => exact indexed

/-! ## Whole runs -/

open TxMemoryPool

/-- An id always comes with the same key images, and these are distinct. -/
def Policy.spending (images : Hash → List KeyImage) : Policy :=
  ⟨fun tx txid => tx.keyImages = images txid ∧ tx.keyImages.Nodup, fun _ _ => True,
    fun _ _ => True⟩

variable {view : ChainView} {other : TxMemoryPool} {unkept : List Hash}
  {images : Hash → List KeyImage}

/-- The index of a pool is exact for the key images that ids stand for. -/
structure KeyImagesIndexed (images : Hash → List KeyImage)
    (pool : TxMemoryPool) : Prop extends pool.WellIndexed where
  typed : pool.Holds fun _ entry => checkInputsTypesSupported entry.tx
  exact : ∀ keyImage txid, txid ∈ pool.spenders keyImage ↔ pool.haveTx txid ∧ keyImage ∈ images txid

variable {entry : PoolEntry} {txRelay : RelayMethod}

section

variable (indexed : pool.KeyImagesIndexed images)

include indexed

private theorem KeyImagesIndexed.rewrite {original : PoolEntry}
    (found : pool.txpool.lookup txid = some original)
    (same : entry.tx = original.tx) (written : other.txpool = pool.txpool.insert txid entry)
    (unchanged : other.spentKeyImages = pool.spentKeyImages) : other.KeyImagesIndexed images := by
  have spendersSame : other.spenders = pool.spenders := by
    unfold spenders
    rw [unchanged]
  have present : pool.haveTx txid := by simp [haveTx, found]
  refine ⟨⟨?_, ?_⟩, ?_, ?_⟩
  · rw [unchanged]
    exact indexed.nonempty
  · rw [spendersSame]
    exact indexed.nodup
  · apply indexed.typed.insert written
    rw [same]
    exact indexed.typed _ _ found
  · intro keyImage id
    rw [spendersSame, indexed.exact, haveTx_insert written]
    by_cases eq : id = txid
    · subst eq
      simp [present]
    · simp [eq]

private theorem spenders_removeEntry (admitted : pool.Admitted (Policy.spending images))
    (found : pool.txpool.lookup txid = some entry)
    (position : Option FeeOrderEntry) (keyImage : KeyImage) :
    (pool.removeEntry view position txid entry).spenders keyImage =
      if keyImage ∈ images txid then (pool.spenders keyImage).erase txid
      else pool.spenders keyImage := by
  obtain ⟨⟨stands, distinct⟩, -⟩ := admitted txid entry found
  have present : pool.haveTx txid := by simp [haveTx, found]
  have removed := spenders_removeTransactionKeyimagesFrom
    (indexed.typed txid entry found) distinct
    (fun keyImage mem => (indexed.exact keyImage txid).mpr ⟨present, stands ▸ mem⟩) keyImage
  rw [spenders, removeEntry_eq, ← stands]
  exact removed

private theorem KeyImagesIndexed.remove (admitted : pool.Admitted (Policy.spending images))
    (found : pool.txpool.lookup txid = some entry) (position : Option FeeOrderEntry) :
    (pool.removeEntry view position txid entry).KeyImagesIndexed images := by
  have freed : (pool.removeEntry view position txid entry).spentKeyImages =
      (pool.removeTransactionKeyimagesFrom txid entry.tx.vin).spentKeyImages := by
    rw [removeEntry_eq]
    rfl
  have wellIndexed := indexed.toWellIndexed.removeTransactionKeyimagesFrom txid entry.tx.vin
  have erased := removeEntry_txpool pool view position txid entry
  refine ⟨⟨?_, ?_⟩, indexed.typed.erase erased, ?_⟩
  · rw [freed]
    exact wellIndexed.nonempty
  · intro keyImage
    rw [spenders, freed]
    exact wellIndexed.nodup keyImage
  · intro keyImage id
    rw [spenders_removeEntry indexed admitted found position keyImage, haveTx_erase erased]
    by_cases eq : id = txid
    · subst eq
      have gone : id ∉ (pool.spenders keyImage).erase id := (indexed.nodup keyImage).not_mem_erase
      split_ifs with own
      · simp [gone]
      · simp [indexed.exact, own]
    · split_ifs
      · rw [mem_erase_of_ne eq]
        simp [indexed.exact, eq]
      · simp [indexed.exact, eq]

private theorem KeyImagesIndexed.store {indexedPool : TxMemoryPool}
    (submits : pool.Submits (Policy.spending images) tx txid txRelay) (same : entry.tx = tx)
    (indexes : pool.insertKeyImages tx txid txRelay = (indexedPool, true))
    (written : other.txpool = pool.txpool.insert txid entry)
    (unchanged : other.spentKeyImages = indexedPool.spentKeyImages) :
    other.KeyImagesIndexed images := by
  have wellIndexed := @WellIndexed.insertKeyImagesFrom pool txid
    indexed.toWellIndexed txRelay tx.vin
  have sets := @spenders_insertKeyImagesFrom pool txid txRelay tx.vin indexedPool indexes
  unfold insertKeyImages at indexes
  rw [indexes] at wellIndexed
  have stands : inputImages tx.vin = images txid := submits.admitted.1
  have spendersSame : other.spenders = indexedPool.spenders := by
    unfold spenders
    rw [unchanged]
  refine ⟨⟨?_, ?_⟩, ?_, ?_⟩
  · rw [unchanged]
    exact wellIndexed.nonempty
  · rw [spendersSame]
    exact wellIndexed.nodup
  · apply indexed.typed.insert written
    rw [same]
    exact submits.typed
  · intro keyImage id
    rw [spendersSame, sets, indexed.exact, stands, haveTx_insert written]
    by_cases eq : id = txid
    · subst eq
      simp
    · simp [eq]

private theorem spenders_refused {refused : TxMemoryPool}
    (submits : pool.Submits (Policy.spending images) tx txid txRelay)
    (indexes : pool.insertKeyImages tx txid txRelay = (refused, false)) (keyImage : KeyImage) :
    refused.spenders keyImage = pool.spenders keyImage := by
  have own : txRelay ≠ .block → ∀ keyImage ∈ tx.keyImages,
      pool.spenders keyImage = [] ∨ pool.spenders keyImage = [txid] := by
    intro ne keyImage mem
    exact (spenders_of_unspent (submits.unspent ne) mem).imp_right And.left
  unfold insertKeyImages at indexes
  cases hidden : pool.txMatchesLegacy txid with
  | false =>
    have succeeds := insertKeyImagesFrom_ok submits.typed hidden own
    rw [indexes] at succeeds
    simp at succeeds
  | true =>
    have present : pool.haveTx txid := by
      unfold txMatchesLegacy at hidden
      unfold haveTx
      split at hidden
      · simp at hidden
      · rename_i found
        simp [found]
    have typed := submits.typed
    unfold checkInputsTypesSupported at typed
    have images : ∀ keyImage ∈ inputImages tx.vin, txid ∈ pool.spenders keyImage := by
      intro keyImage mem
      rw [indexed.exact]
      exact ⟨present, submits.admitted.1 ▸ mem⟩
    generalize tx.vin = inputs at indexes typed images
    match inputs with
    | [] => simp [insertKeyImagesFrom] at indexes
    | .toKey amount keyOffsets image :: rest =>
      have mem := images image mem_cons_self
      rw [insertKeyImagesFrom_toKey] at indexes
      split at indexes
      · rw [← (Prod.mk.inj indexes).1]
      · rw [if_pos ⟨mem, hidden⟩] at indexes
        rw [← (Prod.mk.inj indexes).1, spenders_indexImage]
        split
        · rename_i same
          rw [same, insertSpender, if_pos mem]
        · rfl
    | .gen _ :: _ | .toScript _ _ _ :: _ | .toScriptHash _ _ _ _ _ :: _ =>
      simp [TxIn.isToKey] at typed

private theorem KeyImagesIndexed.refuse {refused : TxMemoryPool}
    (submits : pool.Submits (Policy.spending images) tx txid txRelay)
    (indexes : pool.insertKeyImages tx txid txRelay = (refused, false)) :
    refused.KeyImagesIndexed images := by
  have sets := spenders_refused indexed submits indexes
  have wellIndexed := @WellIndexed.insertKeyImagesFrom pool txid
    indexed.toWellIndexed txRelay tx.vin
  obtain ⟨newImages, cookie, frame⟩ := insertKeyImages_frame indexes
  unfold insertKeyImages at indexes
  rw [indexes] at wellIndexed
  refine ⟨⟨wellIndexed.nonempty, wellIndexed.nodup⟩, ?_, ?_⟩
  · rw [frame]
    exact indexed.typed
  · intro keyImage id
    rw [sets keyImage, indexed.exact, frame]
    rfl

theorem KeyImagesIndexed.move (admitted : pool.Admitted (Policy.spending images))
    (move : Move (Policy.spending images) view pool other) : other.KeyImagesIndexed images := by
  cases move with
  | note | recount => exact ⟨⟨indexed.nonempty, indexed.nodup⟩, indexed.typed, indexed.exact⟩
  | rewrite found tx weight visible => exact indexed.rewrite found tx rfl rfl
  | announce found tx weight visible resubmits feePerByte receiveTime =>
    exact indexed.rewrite found tx rfl rfl
  | remove found points => exact indexed.remove admitted found _
  | store submits resubmits same relays indexes =>
    obtain ⟨newImages, cookie, frame⟩ := insertKeyImages_frame indexes
    refine indexed.store submits same indexes ?_ rfl
    rw [frame]
    rfl
  | refuse submits indexes => exact indexed.refuse submits indexes

end

theorem keyImagesIndexed_empty : empty.KeyImagesIndexed images := by
  refine ⟨⟨?_, ?_⟩, ?_, ?_⟩
  · intro keyImage
    simp [empty]
  · intro keyImage
    simp [spenders, empty]
  · intro txid entry found
    simp [empty] at found
  · intro keyImage txid
    simp [spenders, haveTx, empty]

theorem PoolRun.admitted_and_indexed (run : PoolRun (Policy.spending images) pool unkept) :
    pool.Admitted (Policy.spending images) ∧ pool.KeyImagesIndexed images := by
  refine run.invariant keyImagesIndexed_empty ?_ ?_
  · intro pool indexed
    exact ⟨⟨indexed.nonempty, indexed.nodup⟩, indexed.typed, indexed.exact⟩
  · intro view pool other admitted indexed move
    exact indexed.move admitted move

theorem addTx_unspent {txWeight version : Nat} {relayed : Bool}
    (added : pool.addTx view tx txid txWeight txRelay relayed version = (other, true))
    (outside : txRelay ≠ .block) : pool.haveTxKeyimgesAsSpent tx txid = false := by
  have outcome := addTx_outcome pool view tx txid txWeight txRelay relayed version
  rw [added] at outcome
  generalize result : (other, true) = pair at outcome
  cases outcome with
  | rejected | doubleSpend | refused => simp at result
  | stored typed unspent looped kept same weight relays indexes =>
    exact unspent fun block => outside (kept.mp block)
  | recounted present unspent => exact unspent outside

def Disjointed (images : Hash → List KeyImage) (txids : List Hash) : Prop :=
  ∀ first ∈ txids, ∀ second ∈ txids, first ≠ second →
    ∀ keyImage ∈ images first, keyImage ∉ images second

theorem Disjointed.stillStored {txids : List Hash}
    (disjointed : Disjointed images txids) (pool : TxMemoryPool) :
    Disjointed images (pool.stillStored txids) := by
  intro first firstMember second secondMember
  exact disjointed first (mem_of_mem_filter firstMember) second (mem_of_mem_filter secondMember)

theorem PoolRun.unkept_stored {policy : Policy} (run : PoolRun policy pool unkept) :
    ∀ txid ∈ unkept, pool.haveTx txid := by
  cases run with
  | empty => simp
  | addTx | takeTx | prune | removeStuckTransactions | validate =>
    intro txid mem
    exact (mem_filter.mp mem).2

theorem PoolRun.disjointed (run : PoolRun (Policy.spending images) pool unkept) :
    Disjointed images unkept := by
  induction run with
  | empty =>
    intro first mem
    simp at mem
  | addTx run view tx txid txWeight txRelay relayed version permitted added ih =>
    rename_i pool other unkept ok
    refine Disjointed.stillStored ?_ other
    split
    · rename_i outside
      obtain ⟨rfl, outside⟩ := outside
      have unspent := addTx_unspent added outside
      have own : ∀ id ∈ unkept, id ≠ txid → ∀ keyImage ∈ images txid, keyImage ∉ images id := by
        intro id mem ne keyImage spends shared
        have indexed := run.admitted_and_indexed.2
        have spender : id ∈ pool.spenders keyImage := (indexed.exact keyImage id).mpr
            ⟨run.unkept_stored id mem, shared⟩
        rw [← (permitted.accepted rfl).1.1.1] at spends
        rcases spenders_of_unspent unspent spends with empty | ⟨single, -⟩
        · rw [empty] at spender
          simp at spender
        · rw [single, mem_singleton] at spender
          exact ne spender
      intro first firstMember second secondMember ne keyImage spends
      rcases mem_cons.mp firstMember with rfl | firstOld
      · rcases mem_cons.mp secondMember with rfl | secondOld
        · exact absurd rfl ne
        · exact own second secondOld ne.symm keyImage spends
      · rcases mem_cons.mp secondMember with rfl | secondOld
        · intro shared
          exact own first firstOld ne keyImage shared spends
        · exact ih first firstOld second secondOld ne keyImage spends
    · exact ih
  | takeTx | prune | removeStuckTransactions | validate =>
    rename_i ih
    exact ih.stillStored _

/-- When what is accepted under an id has the same distinct key images, the set kept for a key image
is that of the stored transactions that spend it, and those added outside a block share none. -/
theorem PoolRun.keyImages_exact (run : PoolRun (Policy.spending images) pool unkept) :
    (∀ keyImage, pool.spentKeyImages.lookup keyImage ≠ some [] ∧ (pool.spenders keyImage).Nodup ∧
        ∀ txid, txid ∈ pool.spenders keyImage ↔
          ∃ entry, pool.txpool.lookup txid = some entry ∧
            keyImage ∈ entry.tx.keyImages) ∧
      ∀ first ∈ unkept, ∀ second ∈ unkept, first ≠ second → ∀ firstEntry secondEntry,
          pool.txpool.lookup first = some firstEntry →
          pool.txpool.lookup second = some secondEntry → ∀ keyImage ∈ firstEntry.tx.keyImages,
            keyImage ∉ secondEntry.tx.keyImages := by
  obtain ⟨admitted, indexed⟩ := run.admitted_and_indexed
  have stands : ∀ txid entry, pool.txpool.lookup txid = some entry →
        entry.tx.keyImages = images txid :=
    fun txid entry found => (admitted txid entry found).1.1
  constructor
  · intro keyImage
    refine ⟨indexed.nonempty keyImage, indexed.nodup keyImage, ?_⟩
    intro txid
    rw [indexed.exact]
    constructor
    · rintro ⟨present, member⟩
      obtain ⟨entry, found⟩ := Option.isSome_iff_exists.mp present
      exact ⟨entry, found, (stands txid entry found).symm ▸ member⟩
    · rintro ⟨entry, found, member⟩
      exact ⟨by simp [haveTx, found], stands txid entry found ▸ member⟩
  · intro first firstMember second secondMember different firstEntry
      secondEntry firstFound secondFound
    rw [stands first firstEntry firstFound, stands second secondEntry secondFound]
    exact run.disjointed first firstMember second secondMember different

def refusingView (now : Nat) : ChainView :=
  { acceptingView now with checkTxInputs := fun _ _ => none }

def returnedPool (keyImages : List KeyImage) : TxMemoryPool :=
  (empty.addTx (refusingView 10) (spendingTx keyImages) 1 1500 .block true 16).1

theorem returnedPool_run (policy : Policy) {keyImages : List KeyImage}
    (admits : policy.admits (spendingTx keyImages) 1) (weighs : policy.weighs 1 1500) :
    ∃ unkept, PoolRun policy (returnedPool keyImages) unkept := by
  have allowed : policy.Allows empty (spendingTx keyImages) 1 :=
    ⟨admits, fun present => by simp [haveTx, empty] at present⟩
  exact ⟨_, PoolRun.addTx PoolRun.empty _ _ 1 1500 .block true 16 (allowed.permits weighs) rfl⟩

theorem returnedPool_keyImages_exact : 1 ∈ (returnedPool [7, 8]).spenders 8 ↔
      ∃ entry, (returnedPool [7, 8]).txpool.lookup 1 = some entry ∧
        8 ∈ entry.tx.keyImages := by
  obtain ⟨unkept, run⟩ := @returnedPool_run
    (Policy.spending fun _ => [7, 8]) [7, 8] ⟨by decide, by decide⟩ trivial
  exact ((PoolRun.keyImages_exact run).1 8).2.2 1

def emptiedPool : Option TxMemoryPool :=
  ((returnedPool [7, 7, 8]).takeTx (refusingView 11) 1).map Prod.snd

/-- The index still names the transaction as a spender, but the pool is empty. -/
theorem emptiedPool_keeps_spender : ∃ pool unkept, PoolRun Policy.any pool unkept ∧
      emptiedPool = some pool ∧ pool.txpool.keys = [] ∧ pool.spenders 8 = [1] := by
  obtain ⟨unkept, run⟩ := @returnedPool_run Policy.any [7, 7, 8] trivial trivial
  rcases taken : (returnedPool [7, 7, 8]).takeTx (refusingView 11) 1 with
    _ | ⟨entry, pool⟩
  · have found : ((returnedPool [7, 7, 8]).takeTx (refusingView 11) 1).isSome := by decide
    rw [taken] at found
    simp at found
  · refine ⟨pool, _, PoolRun.takeTx run _ 1 taken, ?_, ?_, ?_⟩
    · rw [emptiedPool, taken]
      rfl
    · have emptied : emptiedPool.map (fun pool => pool.txpool.keys) = some [] := by decide
      rw [emptiedPool, taken] at emptied
      exact Option.some.inj emptied
    · have kept : emptiedPool.map (fun pool => pool.spenders 8) = some [1] := by decide
      rw [emptiedPool, taken] at kept
      exact Option.some.inj kept

end TxMemoryPool

end LodeChain

import LodeChain.ListFacts
import LodeChain.OrderedTable
import LodeChain.PrunedHeights
import LodeChain.Transaction

/-!
# The queue of block spans

Spans of consecutive blocks are reserved for peers and filled with what they send. In orderly runs
the spans stay disjoint, and a reservation hands out hashes nobody was asked for.
-/

namespace LodeChain

open WrappedArithmetic

abbrev ConnectionId := Nat

structure Span (Entry : Type) where
  hashes : List Hash
  blocks : List Entry
  connectionId : ConnectionId
  nblocks : Nat
  deriving DecidableEq, Repr

structure BlockQueue (Entry : Type) where
  blocks : OrderedTable Nat (Span Entry)
  requestedHashes : Finset Hash
  haveBlocks : Finset Hash

/-- The arguments of `reserve_span`; hashes come with block weights. -/
structure SpanRequest where
  firstBlockHeight : Nat
  lastBlockHeight : Nat
  maxBlocks : Nat
  connectionId : ConnectionId
  syncPrunedBlocks : Bool
  localPruningSeed : Nat
  pruningSeed : Nat
  blockchainHeight : Nat
  blockHashes : List (Hash × Nat)
  deriving DecidableEq, Repr

namespace SpanRequest

def hashesStartHeight (request : SpanRequest) : Nat :=
  addMod 64 (request.lastBlockHeight - request.blockHashes.length) 1

def skipPruned (request : SpanRequest) (spanStartHeight : Nat) : Nat :=
  let nextUnprunedHeight := getNextUnprunedBlockHeight spanStartHeight
    request.blockchainHeight request.pruningSeed % 2 ^ 32
  if request.syncPrunedBlocks = false ∧ spanStartHeight < nextUnprunedHeight ∧ nextUnprunedHeight <
        addMod 64 spanStartHeight cryptonotePruningStripeSize then
    nextUnprunedHeight
  else spanStartHeight

def takes (request : SpanRequest) (spanStartHeight spanLength : Nat) : Bool :=
  let unpruned := fun height seed => hasUnprunedBlock height request.blockchainHeight seed
  let firstIsPruned := request.syncPrunedBlocks &&
    !unpruned spanStartHeight request.localPruningSeed
  let height := addMod 64 spanStartHeight spanLength
  decide (spanLength < request.maxBlocks) &&
    (request.syncPrunedBlocks || unpruned height request.pruningSeed) &&
    !(request.syncPrunedBlocks && firstIsPruned == unpruned height request.localPruningSeed)

def collect (request : SpanRequest) (spanStartHeight : Nat) : Nat → List (Hash × Nat) → List Hash
  | _, [] => []
  | spanLength, offered :: rest =>
    if request.takes spanStartHeight spanLength then
      offered.1 :: collect request spanStartHeight (spanLength + 1) rest
    else []

end SpanRequest

namespace BlockQueue

variable {Entry : Type}

def empty : BlockQueue Entry :=
  ⟨.empty, ∅, ∅⟩

variable (queue : BlockQueue Entry)

/-- `blocks.insert`, which keeps a span that starts at the same height. -/
def insert (start : Nat) (span : Span Entry) : BlockQueue Entry :=
  { queue with blocks := (queue.blocks.insertNew start span).getD queue.blocks }

def eraseBlock (start : Nat) : BlockQueue Entry :=
  match queue.blocks.find? start with
  | none => queue
  | some span =>
    { blocks := queue.blocks.discard start
      requestedHashes := queue.requestedHashes \ span.hashes.toFinset
      haveBlocks := queue.haveBlocks \ span.hashes.toFinset }

def eraseWhere (drops : Nat → Span Entry → Bool) : BlockQueue Entry :=
  queue.blocks.rows.foldl (fun queue row =>
    if drops row.1 row.2 then queue.eraseBlock row.1 else queue) queue

def flushSpans (connectionId : ConnectionId) (all : Bool) : BlockQueue Entry :=
  queue.eraseWhere fun _ span =>
    decide (span.connectionId = connectionId) && (all || span.blocks.isEmpty)

def flushStaleSpans (liveConnections : List ConnectionId) : BlockQueue Entry :=
  queue.eraseWhere fun _ span => span.blocks.isEmpty && !liveConnections.contains span.connectionId

def removeSpan (startBlockHeight : Nat) : Option (List Hash) × BlockQueue Entry :=
  ((queue.blocks.find? startBlockHeight).map Span.hashes, queue.eraseBlock startBlockHeight)

def removeSpans (connectionId : ConnectionId) (startBlockHeight : Nat) : BlockQueue Entry :=
  queue.eraseWhere fun start span =>
    decide (span.connectionId = connectionId) && decide (start ≤ startBlockHeight)

def setSpanHashes (startHeight : Nat)
    (connectionId : ConnectionId) (hashes : List Hash) : BlockQueue Entry :=
  match queue.blocks.find? startHeight with
  | none => queue
  | some span =>
    if span.connectionId = connectionId then
      let erased := queue.eraseBlock startHeight
      { erased with
        requestedHashes := erased.requestedHashes ∪ hashes.toFinset }.insert
          startHeight { span with hashes := hashes }
    else queue

def addBlocks (height : Nat) (bcel : List Entry) (connectionId : ConnectionId) : BlockQueue Entry :=
  let removed := queue.removeSpan height
  let inserted := removed.2.insert height ⟨[], bcel, connectionId, bcel.length⟩
  match removed.1 with
  | none => inserted
  | some hashes =>
    { inserted with
      requestedHashes := inserted.requestedHashes ∪ hashes.toFinset
      haveBlocks := inserted.haveBlocks ∪ hashes.toFinset }.setSpanHashes height connectionId hashes

/-- `add_blocks` with a number of blocks, which must not be zero. -/
def addEmptyBlocks (height nblocks : Nat)
    (connectionId : ConnectionId) : Option (BlockQueue Entry) :=
  if 0 < nblocks then some (queue.insert height ⟨[], [], connectionId, nblocks⟩)
  else none

def requestedInternal (offered : Hash × Nat) : Bool :=
  decide (offered.1 ∈ queue.requestedHashes)

def spanStart (request : SpanRequest) : Option (Nat × List (Hash × Nat)) :=
  let skipped := request.blockHashes.takeWhile queue.requestedInternal
  let spanStartHeight := request.skipPruned (addMod 64 request.hashesStartHeight skipped.length)
  if addMod 64 request.blockHashes.length request.hashesStartHeight ≤ spanStartHeight then none
  else
    let rest := request.blockHashes.drop (spanStartHeight - request.hashesStartHeight)
    some (addMod 64 spanStartHeight (rest.takeWhile queue.requestedInternal).length,
      rest.dropWhile queue.requestedInternal)

/-- `reserve_span`: the span's first height and length, and the queue afterwards. -/
def reserveSpan (request : SpanRequest) : (Nat × Nat) × BlockQueue Entry :=
  if request.lastBlockHeight < request.firstBlockHeight ∨ request.maxBlocks = 0 ∨
      request.lastBlockHeight < request.blockHashes.length then
    ((0, 0), queue)
  else
    match queue.spanStart request with
    | none => ((0, 0), queue)
    | some (spanStartHeight, rest) =>
      let hashes := request.collect spanStartHeight 0 rest
      match queue.addEmptyBlocks spanStartHeight hashes.length request.connectionId with
      | none => ((0, 0), queue)
      | some added =>
        ((spanStartHeight, hashes.length),
          added.setSpanHashes spanStartHeight request.connectionId hashes)

def getNextSpanIfScheduled : (Nat × Nat) × List Hash :=
  match queue.blocks.rows.head? with
  | none => ((0, 0), [])
  | some (start, span) =>
    if span.blocks.isEmpty then ((start, span.nblocks), span.hashes)
    else ((0, 0), [])

def nextNeededFrom (blockchainHeight : Nat) :
    List (Nat × Span Entry) → (lastNeededHeight : Nat) → (first : Bool) → Nat
  | [], lastNeededHeight, _ => lastNeededHeight
  | (start, span) :: rest, lastNeededHeight, first =>
    if subMod 64 (addMod 64 start span.nblocks) 1 < blockchainHeight then
      nextNeededFrom blockchainHeight rest lastNeededHeight first
    else if start ≠ lastNeededHeight ∨ (first ∧ span.blocks.isEmpty) then lastNeededHeight
    else nextNeededFrom blockchainHeight rest (addMod 64 start span.nblocks) false

def getNextNeededHeight (blockchainHeight : Nat) : Nat :=
  nextNeededFrom blockchainHeight queue.blocks.rows blockchainHeight true

def getNumFilledSpans : Nat :=
  queue.blocks.rows.countP fun row => !row.2.blocks.isEmpty

/-- `get_next_span` with `filled` set, as far as whether there is one. -/
def hasFilledSpan : Bool :=
  queue.blocks.rows.any fun row => !row.2.blocks.isEmpty

/-- `has_next_span` for a height, when the span it finds must be filled. -/
def hasNextSpanFilled (height : Nat) : Bool :=
  queue.blocks.rows.head?.any fun row => decide (row.1 ≤ height) && !row.2.blocks.isEmpty

end BlockQueue

/-! ## What the sets of hashes say about the queued spans -/

open List OrderedTable

variable {Entry : Type} {heightOf : Hash → Nat}

def Span.Covers (span : Span Entry) (start height : Nat) : Prop :=
  start ≤ height ∧ height < start + span.nblocks

instance (span : Span Entry) (start height : Nat) : Decidable (span.Covers start height) :=
  inferInstanceAs (Decidable (_ ∧ _))

structure Span.Fits (heightOf : Hash → Nat) (start : Nat) (span : Span Entry) : Prop where
  nonempty : 0 < span.nblocks
  length : span.hashes.length = span.nblocks
  heights : ∀ index hash, span.hashes[index]? = some hash → heightOf hash = start + index

namespace Span.Fits

variable {start : Nat} {span : Span Entry}

theorem covers_start (fits : span.Fits heightOf start) : span.Covers start start :=
  ⟨le_rfl, Nat.lt_add_of_pos_right fits.nonempty⟩

theorem covers_of_mem (fits : span.Fits heightOf start) {hash : Hash}
    (mem : hash ∈ span.hashes) : span.Covers start (heightOf hash) := by
  obtain ⟨index, lt, rfl⟩ := getElem_of_mem mem
  rw [fits.heights index _ (getElem?_eq_getElem lt)]
  have := fits.length
  exact ⟨by omega, by omega⟩

theorem exists_of_covers (fits : span.Fits heightOf start) {height : Nat}
    (covered : span.Covers start height) : ∃ hash ∈ span.hashes, heightOf hash = height := by
  obtain ⟨lower, upper⟩ := covered
  have lt : height - start < span.hashes.length := by
    rw [fits.length]
    omega
  refine ⟨_, getElem_mem lt, ?_⟩
  rw [fits.heights _ _ (getElem?_eq_getElem lt)]
  omega

end Span.Fits

namespace BlockQueue

variable {queue : BlockQueue Entry} {start : Nat} {span : Span Entry}

def Records (queue : BlockQueue Entry) (set : Finset Hash) (kind : Span Entry → Prop) : Prop :=
  ∀ hash, hash ∈ set ↔ ∃ start span, queue.blocks.find? start = some span ∧
      hash ∈ span.hashes ∧ kind span

/-- The sets are those of the queued spans, and no two spans cover a common height. -/
structure Consistent (queue : BlockQueue Entry) : Prop where
  requested : queue.Records queue.requestedHashes fun _ => True
  filled : queue.Records queue.haveBlocks fun span => span.blocks ≠ []
  apart : ∀ first second firstSpan secondSpan height, queue.blocks.find? first = some firstSpan →
    queue.blocks.find? second = some secondSpan →
    firstSpan.Covers first height → secondSpan.Covers second height → first = second

structure Tidy (heightOf : Hash → Nat) (queue : BlockQueue Entry) : Prop
    extends Consistent queue where
  fits : ∀ start span, queue.blocks.find? start = some span → span.Fits heightOf start

theorem tidy_empty : Tidy heightOf (empty : BlockQueue Entry) where
  requested := by
    simp [Records, empty]
  filled := by
    simp [Records, empty]
  apart := by
    simp [empty]
  fits := by
    simp [empty]

theorem Tidy.start_eq (tidy : Tidy heightOf queue) {first second : Nat}
    {firstSpan secondSpan : Span Entry} (firstFound : queue.blocks.find? first = some firstSpan)
    (secondFound : queue.blocks.find? second = some secondSpan) {hash : Hash}
    (firstMember : hash ∈ firstSpan.hashes) (secondMember : hash ∈ secondSpan.hashes) :
    first = second :=
  tidy.apart first second firstSpan secondSpan (heightOf hash) firstFound
    secondFound ((tidy.fits _ _ firstFound).covers_of_mem firstMember)
    ((tidy.fits _ _ secondFound).covers_of_mem secondMember)

variable {other : Nat} {otherSpan : Span Entry} {set : Finset Hash} {kind : Span Entry → Prop}

section Erase

theorem eraseBlock_of_absent (absent : queue.blocks.find? start = none) :
    queue.eraseBlock start = queue := by
  rw [eraseBlock, absent]

theorem eraseBlock_of_found (found : queue.blocks.find? start = some span) :
    queue.eraseBlock start =
      { blocks := queue.blocks.discard start
        requestedHashes := queue.requestedHashes \ span.hashes.toFinset
        haveBlocks := queue.haveBlocks \ span.hashes.toFinset } := by
  rw [eraseBlock, found]

theorem find?_eraseBlock_iff : (queue.eraseBlock start).blocks.find? other = some otherSpan ↔
      other ≠ start ∧ queue.blocks.find? other = some otherSpan := by
  cases found : queue.blocks.find? start with
  | none =>
    rw [eraseBlock_of_absent found]
    refine ⟨fun otherFound => ⟨?_, otherFound⟩, And.right⟩
    rintro rfl
    simp [found] at otherFound
  | some span =>
    rw [eraseBlock_of_found found]
    simp only [find?_discard]
    split <;> simp_all

theorem Tidy.records_eraseBlock (tidy : Tidy heightOf queue)
    (found : queue.blocks.find? start = some span) (records : queue.Records set kind) :
    (queue.eraseBlock start).Records (set \ span.hashes.toFinset) kind := by
  intro hash
  simp [find?_eraseBlock_iff, records hash]
  constructor
  · rintro ⟨⟨other, otherSpan, otherFound, mem, kept⟩, outside⟩
    refine ⟨other, otherSpan, ⟨?_, otherFound⟩, mem, kept⟩
    rintro rfl
    rw [found, Option.some.injEq] at otherFound
    exact outside (otherFound ▸ mem)
  · rintro ⟨other, otherSpan, ⟨ne, otherFound⟩, mem, kept⟩
    refine ⟨⟨other, otherSpan, otherFound, mem, kept⟩, ?_⟩
    intro lt
    exact ne (tidy.start_eq otherFound found mem lt)

theorem Tidy.eraseBlock (tidy : Tidy heightOf queue) (start : Nat) :
    Tidy heightOf (queue.eraseBlock start) := by
  cases found : queue.blocks.find? start with
  | none => rwa [eraseBlock_of_absent found]
  | some span =>
    have requested := tidy.records_eraseBlock found tidy.requested
    have filled := tidy.records_eraseBlock found tidy.filled
    refine ⟨⟨?_, ?_, ?_⟩, ?_⟩
    · rwa [eraseBlock_of_found found] at requested ⊢
    · rwa [eraseBlock_of_found found] at filled ⊢
    · intro first second firstSpan secondSpan height firstFound secondFound
      exact tidy.apart first second firstSpan secondSpan height
        (find?_eraseBlock_iff.mp firstFound).2
        (find?_eraseBlock_iff.mp secondFound).2
    · intro other otherSpan otherFound
      exact tidy.fits other otherSpan (find?_eraseBlock_iff.mp otherFound).2

theorem Tidy.eraseWhere (tidy : Tidy heightOf queue) (drops : Nat → Span Entry → Bool) :
    Tidy heightOf (queue.eraseWhere drops) := by
  unfold BlockQueue.eraseWhere
  generalize queue.blocks.rows = rows
  induction rows generalizing queue with
  | nil => exact tidy
  | cons row rest ih =>
    rw [foldl_cons]
    split
    · exact ih (tidy.eraseBlock row.1)
    · exact ih tidy

end Erase

section Enqueue

def enqueue (queue : BlockQueue Entry) (start : Nat) (span : Span Entry) : BlockQueue Entry :=
  { queue with
    requestedHashes := queue.requestedHashes ∪ span.hashes.toFinset
    haveBlocks := queue.haveBlocks ∪
      if span.blocks = [] then ∅ else span.hashes.toFinset }.insert start span

theorem find?_insert (absent : queue.blocks.find? start = none) (other : Nat) :
    (queue.insert start span).blocks.find? other =
      if other = start then some span else queue.blocks.find? other := by
  obtain ⟨after, inserted⟩ := insertNew_of_absent absent
  rw [insert, inserted]
  exact find?_insertNew inserted other

theorem find?_enqueue_iff (absent : queue.blocks.find? start = none) :
    (queue.enqueue start span).blocks.find? other = some otherSpan ↔
      (other = start ∧ span = otherSpan) ∨ queue.blocks.find? other = some otherSpan := by
  change (queue.insert start span).blocks.find? other = some otherSpan ↔ _
  rw [find?_insert absent]
  split
  · rename_i same
    rw [same, absent]
    simp
  · rename_i ne
    simp [ne]

theorem Records.enqueue (absent : queue.blocks.find? start = none)
    {added : Finset Hash} (records : queue.Records set kind)
    (own : ∀ hash, hash ∈ added ↔ hash ∈ span.hashes ∧ kind span) :
    (queue.enqueue start span).Records (set ∪ added) kind := by
  intro hash
  simp [find?_enqueue_iff absent, records hash, own]
  constructor
  · rintro (⟨other, otherSpan, otherFound, mem⟩ | mem)
    · exact ⟨other, otherSpan, .inr otherFound, mem⟩
    · exact ⟨start, span, .inl ⟨rfl, rfl⟩, mem⟩
  · rintro ⟨other, otherSpan, ⟨-, rfl⟩ | otherFound, mem⟩
    · exact .inr mem
    · exact .inl ⟨other, otherSpan, otherFound, mem⟩

def Leaves (queue : BlockQueue Entry) (start : Nat) (span : Span Entry) : Prop :=
  ∀ other otherSpan height, queue.blocks.find? other = some otherSpan →
    otherSpan.Covers other height → ¬span.Covers start height

theorem Tidy.absent (tidy : Tidy heightOf queue) (fits : span.Fits heightOf start)
    (apart : queue.Leaves start span) : queue.blocks.find? start = none := by
  rw [Option.eq_none_iff_forall_ne_some]
  intro other found
  exact apart start other start found (tidy.fits _ _ found).covers_start fits.covers_start

theorem Tidy.enqueue (tidy : Tidy heightOf queue)
    (fits : span.Fits heightOf start) (apart : queue.Leaves start span) :
    Tidy heightOf (queue.enqueue start span) := by
  have absent := tidy.absent fits apart
  refine ⟨⟨?_, ?_, ?_⟩, ?_⟩
  · exact tidy.requested.enqueue absent (by simp)
  · refine tidy.filled.enqueue absent ?_
    intro hash
    split <;> simp_all
  · intro first second firstSpan secondSpan height firstFound secondFound firstCovers secondCovers
    rw [find?_enqueue_iff absent] at firstFound secondFound
    obtain ⟨rfl, rfl⟩ | firstFound := firstFound
    · obtain ⟨rfl, rfl⟩ | secondFound := secondFound
      · rfl
      · exact absurd firstCovers (apart second secondSpan height secondFound secondCovers)
    · obtain ⟨rfl, rfl⟩ | secondFound := secondFound
      · exact absurd secondCovers (apart first firstSpan height firstFound firstCovers)
      · exact tidy.apart first second firstSpan secondSpan height firstFound
          secondFound firstCovers secondCovers
  · intro other otherSpan otherFound
    obtain ⟨rfl, rfl⟩ | otherFound := (find?_enqueue_iff absent).mp otherFound
    · exact fits
    · exact tidy.fits other otherSpan otherFound

theorem setSpanHashes_insert (absent : queue.blocks.find? start = none)
    (hashes : List Hash) (blocks : List Entry) (id : ConnectionId) (nblocks : Nat) :
    (queue.insert start ⟨[], blocks, id, nblocks⟩).setSpanHashes start id hashes = { queue with
        requestedHashes := queue.requestedHashes ∪ hashes.toFinset }.insert
          start ⟨hashes, blocks, id, nblocks⟩ := by
  obtain ⟨after, inserted⟩ := insertNew_of_absent absent
  have found : (queue.insert start ⟨[], blocks, id, nblocks⟩).blocks.find? start =
        some ⟨[], blocks, id, nblocks⟩ := by
    rw [find?_insert absent, if_pos rfl]
  have erased : (queue.insert start ⟨[], blocks, id, nblocks⟩).eraseBlock start = queue := by
    rw [eraseBlock_of_found found, insert, inserted, Option.getD_some,
      discard_insertNew inserted]
    simp
  rw [setSpanHashes, found]
  simp [erased]

end Enqueue

end BlockQueue

/-! ## Runs of the block queue -/

inductive QueueCall (Entry : Type)
  | reserveSpan (request : SpanRequest)
  | addBlocks (height : Nat) (bcel : List Entry) (connectionId : ConnectionId)
  | flushSpans (connectionId : ConnectionId) (all : Bool)
  | flushStaleSpans (liveConnections : List ConnectionId)
  | removeSpan (startBlockHeight : Nat)
  | removeSpans (connectionId : ConnectionId) (startBlockHeight : Nat)

def SpanRequest.Agrees (heightOf : Hash → Nat) (request : SpanRequest) : Prop :=
  request.lastBlockHeight < 2 ^ 64 ∧ ∀ index offered, request.blockHashes[index]? = some offered →
      heightOf offered.1 + request.blockHashes.length = request.lastBlockHeight + 1 + index

def QueueCall.Agrees (heightOf : Hash → Nat) : QueueCall Entry → Prop
  | .reserveSpan request => request.Agrees heightOf
  | _ => True

def SpanRequest.handedOut (request : SpanRequest) (start length : Nat) : List Hash :=
  ((request.blockHashes.drop (start - request.hashesStartHeight)).take length).map Prod.fst

namespace BlockQueue

variable {queue : BlockQueue Entry}

def perform (queue : BlockQueue Entry) : QueueCall Entry → BlockQueue Entry
  | .reserveSpan request => (queue.reserveSpan request).2
  | .addBlocks height bcel connectionId => queue.addBlocks height bcel connectionId
  | .flushSpans connectionId all => queue.flushSpans connectionId all
  | .flushStaleSpans liveConnections => queue.flushStaleSpans liveConnections
  | .removeSpan startBlockHeight => (queue.removeSpan startBlockHeight).2
  | .removeSpans connectionId startBlockHeight => queue.removeSpans connectionId startBlockHeight

variable {span : Span Entry} {height : Nat} {bcel : List Entry} {connectionId : ConnectionId}

section Reserve

variable {request : SpanRequest}

theorem le_skipPruned (request : SpanRequest) (spanStartHeight : Nat) :
    spanStartHeight ≤ request.skipPruned spanStartHeight := by
  unfold SpanRequest.skipPruned
  dsimp only
  split
  · rename_i near
    exact near.2.1.le
  · exact le_rfl

def resumeHeight (queue : BlockQueue Entry) (request : SpanRequest) : Nat :=
  request.skipPruned (addMod 64 request.hashesStartHeight
    (request.blockHashes.takeWhile queue.requestedInternal).length)

section

variable (fits : request.blockHashes.length ≤ request.lastBlockHeight)

include fits

theorem offer_ends (word : request.lastBlockHeight < 2 ^ 64) {span : Nat × List (Hash × Nat)}
    (found : queue.spanStart request = some span) :
    request.lastBlockHeight + 1 < 2 ^ 64 ∧ request.hashesStartHeight + request.blockHashes.length =
        request.lastBlockHeight + 1 := by
  have noWrap : request.lastBlockHeight + 1 < 2 ^ 64 := by
    by_contra wraps
    have ends : addMod 64 request.blockHashes.length request.hashesStartHeight = 0 := by
      rw [SpanRequest.hashesStartHeight, addMod, addMod]
      omega
    rw [spanStart, ends] at found
    simp at found
  have first : request.hashesStartHeight =
      request.lastBlockHeight - request.blockHashes.length + 1 :=
    addMod_of_lt (by omega)
  exact ⟨noWrap, by omega⟩

section

variable (word : request.lastBlockHeight < 2 ^ 64) {spanStartHeight : Nat}
  {rest : List (Hash × Nat)} (found : queue.spanStart request = some (spanStartHeight, rest))

include word found

theorem spanStart_resumes :
    ∃ resumed, (request.blockHashes.takeWhile queue.requestedInternal).length ≤ resumed ∧
      queue.resumeHeight request = request.hashesStartHeight + resumed ∧
      request.hashesStartHeight + request.blockHashes.length = request.lastBlockHeight + 1 ∧
      spanStartHeight = request.hashesStartHeight + (resumed +
        ((request.blockHashes.drop resumed).takeWhile queue.requestedInternal).length) ∧
      rest = request.blockHashes.drop (resumed +
        ((request.blockHashes.drop resumed).takeWhile queue.requestedInternal).length) := by
  obtain ⟨noWrap, total⟩ := offer_ends fits word found
  have ends : addMod 64 request.blockHashes.length request.hashesStartHeight =
      request.lastBlockHeight + 1 := by
    rw [addMod_of_lt (by omega), add_comm, total]
  have skips := (List.takeWhile_prefix queue.requestedInternal (l := request.blockHashes)).length_le
  have begins : addMod 64 request.hashesStartHeight
      (request.blockHashes.takeWhile queue.requestedInternal).length = request.hashesStartHeight +
          (request.blockHashes.takeWhile queue.requestedInternal).length :=
    addMod_of_lt (by omega)
  have later := le_skipPruned request (request.hashesStartHeight +
    (request.blockHashes.takeWhile queue.requestedInternal).length)
  rw [spanStart, begins] at found
  rw [resumeHeight, begins]
  generalize request.skipPruned (request.hashesStartHeight +
    (request.blockHashes.takeWhile queue.requestedInternal).length) = resumed at found later ⊢
  split at found
  · simp at found
  · rename_i lt
    rw [Option.some.injEq, Prod.mk.injEq] at found
    obtain ⟨starts, rests⟩ := found
    have again := (List.takeWhile_prefix queue.requestedInternal (l := request.blockHashes.drop
        (resumed - request.hashesStartHeight))).length_le
    rw [length_drop] at again
    rw [ListFacts.dropWhile_eq_drop, drop_drop] at rests
    rw [addMod_of_lt (by omega)] at starts
    exact ⟨resumed - request.hashesStartHeight, by omega, by omega, by omega, by omega, rests.symm⟩

end

end

theorem reserveSpan_eq_of_zero (nothing : (queue.reserveSpan request).1.2 = 0) :
    (queue.reserveSpan request).2 = queue := by
  revert nothing
  unfold reserveSpan addEmptyBlocks
  split
  · exact fun _ => rfl
  · split
    · exact fun _ => rfl
    · dsimp only
      split
      · exact fun _ => rfl
      · rename_i added
        intro nothing
        split_ifs at added with some
        dsimp only at nothing
        omega

/-- The part of an offer that follows the requested hashes and that the peer can serve in one
span. -/
structure Window (queue : BlockQueue Entry) (request : SpanRequest)
    (index length : Nat) : Prop where
  resumed : queue.resumeHeight request ≤ request.hashesStartHeight + index
  free : ∃ offered, request.blockHashes[index]? = some offered ∧
    queue.requestedInternal offered = false
  first : ∀ earlier < index, queue.resumeHeight request ≤ request.hashesStartHeight + earlier →
    ∀ offered, request.blockHashes[earlier]? = some offered → queue.requestedInternal offered = true
  inside : index + length ≤ request.blockHashes.length
  taken : ∀ offset < length, request.takes (request.hashesStartHeight + index) offset = true
  stops : index + length < request.blockHashes.length →
    request.takes (request.hashesStartHeight + index) length = false

variable {index length : Nat}

theorem Window.unique {otherIndex otherLength : Nat} (window : queue.Window request index length)
    (other : queue.Window request otherIndex otherLength) :
    index = otherIndex ∧ length = otherLength := by
  have ordered : ∀ {low high lowLength highLength : Nat},
      queue.Window request low lowLength → queue.Window request high highLength → ¬ low < high := by
    intro low high lowLength highLength lower higher before
    obtain ⟨offered, place, unrequested⟩ := lower.free
    have requested := higher.first low before lower.resumed offered place
    rw [unrequested] at requested
    exact Bool.false_ne_true requested
  obtain rfl : index = otherIndex := le_antisymm (not_lt.mp (ordered other window))
      (not_lt.mp (ordered window other))
  have longer : ∀ {short long : Nat}, queue.Window request index short →
      queue.Window request index long → ¬ short < long := by
    intro short long shorter larger before
    have stopped := shorter.stops (by have := larger.inside; omega)
    rw [larger.taken short before] at stopped
    exact Bool.false_ne_true stopped.symm
  exact ⟨rfl, le_antisymm (not_lt.mp (longer other window)) (not_lt.mp (longer window other))⟩

theorem collect_spec (request : SpanRequest) (start spanLength : Nat) (rest : List (Hash × Nat)) :
    ∃ count ≤ rest.length, request.collect start spanLength rest = (rest.take count).map Prod.fst ∧
      (∀ offset < count, request.takes start (spanLength + offset) = true) ∧
      (count < rest.length → request.takes start (spanLength + count) = false) := by
  induction rest generalizing spanLength with
  | nil => exact ⟨0, le_rfl, rfl, by simp, by simp⟩
  | cons offered rest ih =>
    rw [SpanRequest.collect]
    split_ifs with takes
    · obtain ⟨count, bounded, collected, taken, stops⟩ := ih _
      refine ⟨count + 1, by simpa using bounded, ?_, ?_, ?_⟩
      · rw [collected, take_succ_cons, map_cons]
      · intro offset lt
        cases offset with
        | zero => exact takes
        | succ offset =>
          rw [← add_assoc, add_right_comm]
          exact taken offset (by omega)
      · intro more
        rw [← add_assoc, add_right_comm]
        exact stops (by simpa using more)
    · exact ⟨0, Nat.zero_le _, by simp, by simp, fun _ => Bool.eq_false_iff.mpr takes⟩

theorem window_of_spanStart (fits : request.blockHashes.length ≤ request.lastBlockHeight)
    (word : request.lastBlockHeight < 2 ^ 64) {spanStart : Nat} {rest : List (Hash × Nat)}
    (found : queue.spanStart request = some (spanStart, rest))
    (pos : 0 < (request.collect spanStart 0 rest).length) :
    ∃ index, queue.Window request index (request.collect spanStart 0 rest).length ∧
      spanStart = request.hashesStartHeight + index ∧ request.collect spanStart 0 rest =
        request.handedOut spanStart (request.collect spanStart 0 rest).length ∧
      request.hashesStartHeight + request.blockHashes.length = request.lastBlockHeight + 1 := by
  obtain ⟨resumed, -, resumes, ends, starts, rests⟩ := spanStart_resumes fits word found
  obtain ⟨count, bounded, collected, taken, stops⟩ := collect_spec request spanStart 0 rest
  have length : (request.collect spanStart 0 rest).length = count := by
    rw [collected, length_map, length_take, min_eq_left bounded]
  rw [length] at pos ⊢
  generalize skips : ((request.blockHashes.drop resumed).takeWhile
    queue.requestedInternal).length = skipped at starts rests
  rw [rests, length_drop] at bounded stops
  have handed : request.collect spanStart 0 rest =
      request.handedOut spanStart count := by
    rw [collected, SpanRequest.handedOut, rests, starts, Nat.add_sub_cancel_left]
  simp only [zero_add, starts] at taken stops
  refine ⟨resumed + skipped, ⟨by omega, ?_, ?_, by omega, taken, ?_⟩, starts, handed, ends⟩
  · have lt : resumed + skipped < request.blockHashes.length := by omega
    have place : (request.blockHashes.drop resumed)[((request.blockHashes.drop
        resumed).takeWhile queue.requestedInternal).length]? =
          some (request.blockHashes[resumed + skipped]) := by
      rw [skips, getElem?_drop, getElem?_eq_getElem]
    exact ⟨_, getElem?_eq_getElem lt, ListFacts.not_of_length_takeWhile place⟩
  · intro prev before later offered place
    obtain ⟨offset, rfl⟩ := Nat.exists_eq_add_of_le (by omega : resumed ≤ prev)
    rw [← getElem?_drop] at place
    exact ListFacts.of_lt_length_takeWhile (by omega) place
  · intro more
    exact stops (by omega)

theorem reserveSpan_window (word : request.lastBlockHeight < 2 ^ 64) {start : Nat}
    (reserved : (queue.reserveSpan request).1 = (start, length)) (pos : 0 < length) :
    ∃ index, queue.Window request index length ∧ start = request.hashesStartHeight + index ∧
      (queue.reserveSpan request).2 =
        (queue.insert start ⟨[], [], request.connectionId, length⟩).setSpanHashes
          start request.connectionId (request.handedOut start length) ∧
      request.hashesStartHeight + request.blockHashes.length = request.lastBlockHeight + 1 := by
  revert reserved
  unfold reserveSpan addEmptyBlocks
  split
  · rintro ⟨⟩
    exact absurd pos (lt_irrefl 0)
  · rename_i admitted
    split
    · rintro ⟨⟩
      exact absurd pos (lt_irrefl 0)
    · rename_i spanStart rest found
      dsimp only
      by_cases collects : 0 < (request.collect spanStart 0 rest).length
      · rw [if_pos collects]
        rintro ⟨⟩
        obtain ⟨index, window, starts, handed, ends⟩ :=
          window_of_spanStart (by omega) word found collects
        exact ⟨index, window, starts, by rw [← handed], ends⟩
      · rw [if_neg collects]
        rintro ⟨⟩
        exact absurd pos (lt_irrefl 0)

theorem Window.exists_offered (window : queue.Window request index length) {hash : Hash}
    (mem : hash ∈ request.handedOut (request.hashesStartHeight + index) length) :
    ∃ offered ∈ request.blockHashes.dropWhile queue.requestedInternal, offered.1 = hash := by
  obtain ⟨offered, taken, rfl⟩ := mem_map.mp mem
  rw [Nat.add_sub_cancel_left] at taken
  obtain ⟨free, place, unrequested⟩ := window.free
  have past : (request.blockHashes.takeWhile queue.requestedInternal).length ≤ index := by
    by_contra before
    have requested : queue.requestedInternal free = true :=
      ListFacts.of_lt_length_takeWhile (by omega) place
    rw [unrequested] at requested
    cases requested
  rw [ListFacts.dropWhile_eq_drop]
  exact ⟨offered, drop_subset_drop_left _ past (mem_of_mem_take taken), rfl⟩

/-- What a window hands out has not the height of a requested hash; data comes for a queued span,
all of it. -/
def Orderly (heightOf : Hash → Nat) (queue : BlockQueue Entry) : QueueCall Entry → Prop
  | .reserveSpan request => ∀ index length, queue.Window request index length →
      ∀ handed ∈ request.handedOut (request.hashesStartHeight + index) length,
        ∀ hash ∈ queue.requestedHashes, heightOf hash ≠ heightOf handed
  | .addBlocks height bcel _ =>
    ∃ span, queue.blocks.find? height = some span ∧ bcel.length = span.nblocks
  | _ => True

theorem fits_of_window (agrees : request.Agrees heightOf)
    (ends : request.hashesStartHeight + request.blockHashes.length = request.lastBlockHeight + 1)
    (window : queue.Window request index length) (pos : 0 < length) :
    (⟨request.handedOut (request.hashesStartHeight + index) length, [], request.connectionId,
      length⟩ : Span Entry).Fits heightOf (request.hashesStartHeight + index) where
  nonempty := pos
  length := by
    have inside := window.inside
    simp [SpanRequest.handedOut]
    omega
  heights := by
    intro offset hash found
    rw [SpanRequest.handedOut, Nat.add_sub_cancel_left, getElem?_map, getElem?_take] at found
    obtain ⟨offered, place, rfl⟩ := Option.map_eq_some_iff.mp found
    split_ifs at place
    have agreed := agrees.2 _ _ (getElem?_drop.symm.trans place)
    omega

theorem leaves_of_fresh {start : Nat} (tidy : Tidy heightOf queue) (fits : span.Fits heightOf start)
    (fresh : ∀ handed ∈ span.hashes, ∀ hash ∈ queue.requestedHashes,
      heightOf hash ≠ heightOf handed) : queue.Leaves start span := by
  intro other otherSpan height found otherCovers covers
  obtain ⟨hash, mem, rfl⟩ := (tidy.fits _ _ found).exists_of_covers otherCovers
  obtain ⟨handed, handedMem, same⟩ := fits.exists_of_covers covers
  exact fresh handed handedMem hash
    ((tidy.requested hash).mpr ⟨other, otherSpan, found, mem, trivial⟩) same.symm

theorem Tidy.reserveSpan (tidy : Tidy heightOf queue) (agrees : request.Agrees heightOf)
    (orderly : queue.Orderly heightOf (.reserveSpan request)) :
    Tidy heightOf (queue.reserveSpan request).2 := by
  rcases reserved : (queue.reserveSpan request).1 with ⟨start, length⟩
  rcases Nat.eq_zero_or_pos length with rfl | pos
  · rwa [reserveSpan_eq_of_zero (by rw [reserved])]
  · obtain ⟨index, window, rfl, added, ends⟩ := reserveSpan_window agrees.1 reserved pos
    have fits := @fits_of_window Entry _ _ _ _ _ agrees ends window pos
    have apart := leaves_of_fresh tidy fits (orderly index length window)
    have enqueued := tidy.enqueue fits apart
    rw [added, setSpanHashes_insert (tidy.absent fits apart)]
    simpa [BlockQueue.enqueue] using enqueued

end Reserve

theorem addBlocks_of_found (found : queue.blocks.find? height = some span)
    (filled : bcel ≠ []) (connectionId : ConnectionId) :
    queue.addBlocks height bcel connectionId = (queue.eraseBlock height).enqueue height
        ⟨span.hashes, bcel, connectionId, bcel.length⟩ := by
  have absent : (queue.eraseBlock height).blocks.find? height = none := by
    rw [Option.eq_none_iff_forall_ne_some]
    intro other stays
    exact (find?_eraseBlock_iff.mp stays).1 rfl
  have inserted := @setSpanHashes_insert _ { queue.eraseBlock height with
      requestedHashes := (queue.eraseBlock height).requestedHashes ∪ span.hashes.toFinset
      haveBlocks := (queue.eraseBlock height).haveBlocks ∪ span.hashes.toFinset }
    height absent span.hashes bcel connectionId bcel.length
  rw [addBlocks, removeSpan, found]
  refine inserted.trans ?_
  simp [enqueue, filled, Finset.union_assoc]

theorem Tidy.addBlocks (tidy : Tidy heightOf queue)
    (orderly : queue.Orderly heightOf (.addBlocks height bcel connectionId)) :
    Tidy heightOf (queue.addBlocks height bcel connectionId) := by
  obtain ⟨span, found, length⟩ := orderly
  have fits := tidy.fits _ _ found
  have filled : bcel ≠ [] := by
    rintro rfl
    exact fits.nonempty.ne length
  rw [addBlocks_of_found found filled]
  refine (tidy.eraseBlock height).enqueue ?_ ?_
  · exact ⟨length ▸ fits.nonempty, fits.length.trans length.symm, fits.heights⟩
  · intro other otherSpan covered otherFound otherCovers covers
    obtain ⟨ne, otherFound⟩ := find?_eraseBlock_iff.mp otherFound
    refine ne (tidy.apart other height otherSpan span covered otherFound found otherCovers ?_)
    rwa [Span.Covers, ← length]

theorem Tidy.perform (tidy : Tidy heightOf queue) {call : QueueCall Entry}
    (agrees : call.Agrees heightOf) (orderly : queue.Orderly heightOf call) :
    Tidy heightOf (queue.perform call) := by
  cases call with
  | reserveSpan request => exact tidy.reserveSpan agrees orderly
  | addBlocks height bcel connectionId => exact tidy.addBlocks orderly
  | flushSpans connectionId all =>
    rw [BlockQueue.perform]
    exact tidy.eraseWhere _
  | flushStaleSpans liveConnections =>
    rw [BlockQueue.perform]
    exact tidy.eraseWhere _
  | removeSpan startBlockHeight => exact tidy.eraseBlock startBlockHeight
  | removeSpans connectionId startBlockHeight =>
    rw [BlockQueue.perform]
    exact tidy.eraseWhere _

/-- Queues that orderly calls reach when hashes agree on their heights. -/
inductive OrderlyRun (heightOf : Hash → Nat) : BlockQueue Entry → Prop
  | start : OrderlyRun heightOf empty
  | call (queue : BlockQueue Entry) (call : QueueCall Entry)
      (run : OrderlyRun heightOf queue) (agrees : call.Agrees heightOf)
      (orderly : queue.Orderly heightOf call) :
      OrderlyRun heightOf (queue.perform call)

theorem OrderlyRun.tidy (run : OrderlyRun heightOf queue) : Tidy heightOf queue := by
  induction run with
  | start => exact tidy_empty
  | call queue call _ agrees orderly ih => exact ih.perform agrees orderly

/-- In every orderly run the sets of hashes say what the spans say, and spans are disjoint. -/
theorem OrderlyRun.consistent (run : OrderlyRun heightOf queue) : queue.Consistent :=
  run.tidy.toConsistent

def offerOf (connectionId : ConnectionId) (first count : Nat) : SpanRequest where
  firstBlockHeight := first
  lastBlockHeight := first + count - 1
  maxBlocks := 100
  connectionId := connectionId
  syncPrunedBlocks := false
  localPruningSeed := 0
  pruningSeed := 0
  blockchainHeight := first
  blockHashes := (range' first count).map fun height => (height, 0)

theorem offerOf_agrees {first count : Nat}
    (pos : 0 < first + count) (word : first + count ≤ 2 ^ 64) :
    (offerOf connectionId first count).Agrees id := by
  refine ⟨by simp [offerOf]; omega, ?_⟩
  intro index offered found
  simp [offerOf] at found
  obtain ⟨height, place, rfl⟩ := found
  obtain ⟨lt, rfl⟩ := List.getElem?_eq_some_iff.mp place
  simp [offerOf]
  omega

def reservedThree : BlockQueue Unit :=
  empty.perform (.reserveSpan (offerOf 1 10 3))

theorem reservedThree_filled_consistent :
    ((reservedThree.perform (.reserveSpan (offerOf 2 10 5))).perform
      (.addBlocks 10 [(), (), ()] 1)).Consistent := by
  have first : OrderlyRun id reservedThree := by
    refine .call _ (.reserveSpan _) .start (offerOf_agrees (by decide) (by decide)) ?_
    intro index length window handed _ hash member
    simp [empty] at member
  have second : OrderlyRun id (reservedThree.perform (.reserveSpan (offerOf 2 10 5))) := by
    refine .call _ _ first (offerOf_agrees (by decide) (by decide)) ?_
    have checked : ∀ offered ∈
        (offerOf 2 10 5).blockHashes.dropWhile reservedThree.requestedInternal,
        ∀ hash ∈ reservedThree.requestedHashes, hash ≠ offered.1 := by
      decide
    intro index length window handed mem
    obtain ⟨offered, fresh, rfl⟩ := window.exists_offered mem
    exact checked offered fresh
  refine OrderlyRun.consistent (.call _ _ second trivial ?_)
  exact ⟨_, rfl, rfl⟩

/-- Another peer offers the blocks from 8 on: its span takes those from 10 to 12 once more. -/
theorem reservedThree_overlapped : (offerOf 1 10 3).Agrees id ∧ (offerOf 2 8 5).Agrees id ∧
      ¬(reservedThree.perform (.reserveSpan (offerOf 2 8 5))).Consistent := by
  refine ⟨offerOf_agrees (by decide) (by decide), offerOf_agrees (by decide) (by decide), ?_⟩
  intro consistent
  have same := consistent.apart 8 10 ⟨[8, 9, 10, 11, 12], [], 2, 5⟩
    ⟨[10, 11, 12], [], 1, 3⟩ 10 rfl rfl (by decide) (by decide)
  simp at same

end BlockQueue

/-! ## What a reservation hands out -/

namespace BlockQueue

variable {queue : BlockQueue Entry} {request : SpanRequest} {index length : Nat}

theorem find?_reserved (start length : Nat) (id : ConnectionId) (hashes : List Hash) :
    ((queue.insert start ⟨[], [], id, length⟩).setSpanHashes start
        id hashes).blocks.find? start = some (match queue.blocks.find? start with
        | none => ⟨hashes, [], id, length⟩
        | some span =>
          if span.connectionId = id then { span with hashes := hashes }
          else
            span) := by
  cases present : queue.blocks.find? start with
  | none =>
    rw [setSpanHashes_insert present, find?_insert, if_pos rfl]
    exact present
  | some span =>
    have kept : queue.insert start ⟨[], [], id, length⟩ = queue := by
      rw [insert, OrderedTable.insertNew_of_found present, Option.getD_none]
    rw [kept, setSpanHashes, present]
    dsimp only
    split_ifs with own
    · rw [find?_insert, if_pos rfl]
      rw [Option.eq_none_iff_forall_ne_some]
      intro other stays
      exact (find?_eraseBlock_iff.mp stays).1 rfl
    · exact present

/-- To hand out hashes that nobody was asked for, in a span of the caller's own. -/
def Reserves (queue : BlockQueue Entry) (request : SpanRequest) (start length : Nat) : Prop :=
  (∀ hash ∈ request.handedOut start length, hash ∉ queue.requestedHashes) ∧
    ∃ span, (queue.reserveSpan request).2.blocks.find? start = some span ∧
      span.nblocks = length ∧ span.connectionId = request.connectionId ∧
      span.hashes = request.handedOut start length

/-- From the height where the search resumes to the end of its window, the requested hashes of an
offer come before the others. -/
def RequestedFirst (queue : BlockQueue Entry) (request : SpanRequest) (stop : Nat) : Prop :=
  ∀ earlier later offered behind, earlier < later → later < stop →
    queue.resumeHeight request ≤ request.hashesStartHeight + earlier →
    request.blockHashes[earlier]? = some offered → request.blockHashes[later]? = some behind →
    queue.requestedInternal behind = true → queue.requestedInternal offered = true

/-- Requested hashes come first, and a span queued at the height of the window is the caller's and
as long. -/
def Unclaimed (queue : BlockQueue Entry) (request : SpanRequest) : Prop :=
  ∀ index length, queue.Window request index length →
    queue.RequestedFirst request (index + length) ∧
    ∀ span, queue.blocks.find? (request.hashesStartHeight + index) = some span →
      span.connectionId = request.connectionId ∧ span.nblocks = length

theorem forall_mem_handedOut {property : Hash → Prop} :
    (∀ hash ∈ request.handedOut (request.hashesStartHeight + index) length, property hash) ↔
      ∀ offset < length, ∀ offered, request.blockHashes[index + offset]? = some offered →
          property offered.1 := by
  rw [SpanRequest.handedOut, Nat.add_sub_cancel_left]
  constructor
  · intro holds offset lt offered place
    apply holds
    refine mem_map_of_mem (mem_of_getElem? (i := offset) ?_)
    rwa [getElem?_take_of_lt lt, getElem?_drop]
  · intro holds hash mem
    obtain ⟨offered, taken, rfl⟩ := mem_map.mp mem
    obtain ⟨offset, place⟩ := mem_iff_getElem?.mp taken
    rw [getElem?_take] at place
    split_ifs at place with lt
    exact holds offset lt offered (by rwa [getElem?_drop] at place)

theorem Window.unrequested_iff (window : queue.Window request index length) :
    (∀ hash ∈ request.handedOut (request.hashesStartHeight + index) length,
        hash ∉ queue.requestedHashes) ↔ queue.RequestedFirst request (index + length) := by
  obtain ⟨free, freePlace, unrequested⟩ := window.free
  rw [forall_mem_handedOut]
  constructor
  · intro fresh earlier later offered behind before inside resumed place behindPlace requested
    have outside : later < index := by
      by_contra within
      obtain ⟨offset, rfl⟩ := Nat.exists_eq_add_of_le (not_lt.mp within)
      exact fresh offset (by omega) behind behindPlace (of_decide_eq_true requested)
    exact window.first earlier (by omega) resumed offered place
  · intro first offset lt offered place member
    have requested : queue.requestedInternal offered = true := decide_eq_true member
    have again : queue.requestedInternal free = true := by
      rcases Nat.eq_zero_or_pos offset with rfl | pos
      · rwa [Option.some.inj (freePlace.symm.trans place)]
      · exact first index _ free offered (by omega) (by omega) window.resumed freePlace place
          requested
    rw [unrequested] at again
    cases again

theorem reserved_span_iff {start : Nat} {id : ConnectionId} {hashes : List Hash} :
    (∃ span, ((queue.insert start ⟨[], [], id, length⟩).setSpanHashes start
          id hashes).blocks.find? start = some span ∧
        span.nblocks = length ∧ span.connectionId = id ∧ span.hashes = hashes) ↔
      ∀ span, queue.blocks.find? start = some span →
        span.connectionId = id ∧ span.nblocks = length := by
  simp [find?_reserved]
  cases queue.blocks.find? start with
  | none => simp
  | some span =>
    simp
    split_ifs with own
    · simp [own]
    · simp [own]

/-- A reservation hands out only unrequested hashes, in a span of the caller's own, exactly when its
window is unclaimed. -/
theorem reserves_iff_unclaimed (word : request.lastBlockHeight < 2 ^ 64) {start length : Nat}
    (reserved : (queue.reserveSpan request).1 = (start, length)) (positive : 0 < length) :
    queue.Reserves request start length ↔ queue.Unclaimed request := by
  obtain ⟨index, window, rfl, after, -⟩ := reserveSpan_window word reserved positive
  rw [Reserves, after, reserved_span_iff, window.unrequested_iff]
  constructor
  · intro holds otherIndex otherLength other
    obtain ⟨rfl, rfl⟩ := window.unique other
    exact holds
  · intro unclaimed
    exact unclaimed index length window

theorem unclaimed_of_requested_first
    (ordered : ∀ (index later : Nat) (offered behind : Hash × Nat), index < later →
      request.blockHashes[index]? = some offered → request.blockHashes[later]? = some behind →
      queue.requestedInternal behind = true → queue.requestedInternal offered = true)
    (vacant : ∀ index offered, request.blockHashes[index]? = some offered →
      queue.requestedInternal offered = false →
      queue.blocks.find? (request.hashesStartHeight + index) = none) : queue.Unclaimed request := by
  intro index length window
  obtain ⟨free, place, unrequested⟩ := window.free
  constructor
  · intro earlier later offered behind before _ _
    exact ordered earlier later offered behind before
  · intro span found
    rw [vacant index free place unrequested] at found
    cases found

theorem reservedThree_extended : (reservedThree.reserveSpan (offerOf 2 10 5)).1 = (13, 2) ∧
      reservedThree.Reserves (offerOf 2 10 5) 13 2 := by
  have reserved : (reservedThree.reserveSpan (offerOf 2 10 5)).1 = (13, 2) := by decide
  have requested : ∀ index offered, (offerOf 2 10 5).blockHashes[index]? = some offered →
        (reservedThree.requestedInternal offered = true ↔ index < 3) := by
    intro index offered place
    obtain ⟨inside, rfl⟩ := List.getElem?_eq_some_iff.mp place
    have checked : ∀ place : Fin 5, reservedThree.requestedInternal
        ((offerOf 2 10 5).blockHashes.get place) = true ↔ place.val < 3 := by
      decide
    exact checked ⟨index, inside⟩
  refine ⟨reserved, (reserves_iff_unclaimed (by decide) reserved
    (by decide)).mpr (unclaimed_of_requested_first ?_ ?_)⟩
  · intro index later offered behind before place behindPlace behindRequested
    rw [requested later behind behindPlace] at behindRequested
    exact (requested index offered place).mpr (by omega)
  · intro index offered place unrequested
    have behind : ¬ index < 3 := by
      rw [← requested index offered place, unrequested]
      exact Bool.false_ne_true
    have rows : reservedThree.blocks.rows = [(10, ⟨[10, 11, 12], [], 1, 3⟩)] := rfl
    rw [OrderedTable.find?_eq_none_iff, rows]
    intro row member
    obtain rfl := mem_singleton.mp member
    have starts : (offerOf 2 10 5).hashesStartHeight = 10 := by decide
    omega

/-- A peer that offers two earlier blocks as well is handed the requested ones
behind them. -/
theorem reservedThree_handed_again : (reservedThree.reserveSpan (offerOf 2 8 5)).1 = (8, 5) ∧
      ¬ reservedThree.Reserves (offerOf 2 8 5) 8 5 := by
  refine ⟨by decide, fun reserves => ?_⟩
  exact reserves.1 10 (by decide) (by decide)

end BlockQueue

end LodeChain

import LodeChain.MissingObjects

/-!
# The heights of needed objects

The needed hashes are the end of what the peer announced, which gives their heights.
-/

namespace LodeChain

open WrappedArithmetic List

namespace ConnectionContext

variable {Entry : Type} {around : Surroundings} {before middle after context : ConnectionContext}
  {queue later : BlockQueue Entry}

def DropsFront (before after : ConnectionContext) : Prop :=
  after.lastResponseHeight = before.lastResponseHeight ∧
    ∃ count, after.neededObjects = before.neededObjects.drop count

theorem DropsFront.of_eq (height : after.lastResponseHeight = before.lastResponseHeight)
    (needed : after.neededObjects = before.neededObjects) : DropsFront before after :=
  ⟨height, 0, needed⟩

theorem DropsFront.trans (first : DropsFront before middle) (second : DropsFront middle after) :
    DropsFront before after := by
  obtain ⟨firstHeight, firstCount, firstNeeded⟩ := first
  obtain ⟨secondHeight, secondCount, secondNeeded⟩ := second
  refine ⟨secondHeight.trans firstHeight, firstCount + secondCount, ?_⟩
  rw [secondNeeded, firstNeeded, drop_drop]

theorem skipUnneededHashes_dropsFront (around : Surroundings)
    (context : ConnectionContext) (queue : BlockQueue Entry) (checkBlockQueue : Bool) :
    DropsFront context (context.skipUnneededHashes around queue checkBlockQueue).2 :=
  ⟨rfl, _, rfl⟩

theorem settleNothingLeft_dropsFront
    (settled : context.settleNothingLeft around queue = some after) : DropsFront context after := by
  rw [settleNothingLeft] at settled
  split_ifs at settled
  cases settled
  exact .of_eq rfl rfl

theorem settleNoSpan_dropsFront (settled : context.settleNoSpan around queue = some after) :
    DropsFront context after := by
  unfold settleNoSpan at settled
  dsimp only at settled
  split_ifs at settled
  cases settled
  exact .of_eq rfl rfl

variable {span : Nat × Nat} {scheduled : List Hash}

theorem sendRequest_keeps {blocks : List Hash}
    (sent : sendRequest around context span blocks = some after) :
    after.lastResponseHeight = context.lastResponseHeight ∧
      after.neededObjects = context.neededObjects := by
  unfold sendRequest at sent
  dsimp only at sent
  split_ifs at sent
  cases sent
  exact ⟨rfl, rfl⟩

theorem requestReserved_dropsFront
    (requested : context.requestReserved around span = some after) : DropsFront context after := by
  unfold requestReserved at requested
  dsimp only at requested
  split_ifs at requested
  obtain ⟨height, needed⟩ := sendRequest_keeps requested
  exact ⟨height, _, needed.trans drop_drop⟩

theorem requestChain_needed (requested : context.requestChain around queue = some after) :
    after.neededObjects = [] := by
  unfold requestChain at requested
  dsimp only at requested
  split_ifs at requested
  · cases requested
    rfl
  · cases history : around.shortChainHistory with
    | nil => simp [history] at requested
    | cons front rest =>
      simp [history] at requested
      rw [← requested]
  · cases requested
    rfl

/-- Clears the needed objects, takes some from the front, or in a corner case also the hashes of a
scheduled span. -/
inductive Takes (corner : Option ConnectionContext) (scheduled : List Hash)
    (before after : ConnectionContext) : Prop
  | clear (none : after.neededObjects = [])
  | front (drops : DropsFront before after)
  | erase (middle : ConnectionContext) (entered : middle ∈ corner)
      (drops : DropsFront before middle)
      (height : after.lastResponseHeight = middle.lastResponseHeight)
      (needed : after.neededObjects = eraseHashes middle.neededObjects scheduled)

theorem Takes.after_dropsFront {corner : Option ConnectionContext}
    (drops : DropsFront before middle) (takes : Takes corner scheduled middle after) :
    Takes corner scheduled before after := by
  cases takes with
  | clear none => exact .clear none
  | front rest => exact .front (drops.trans rest)
  | erase inner entered rest height needed =>
    exact .erase inner entered (drops.trans rest) height needed

theorem requestNextScheduled_takes
    (requested : context.requestNextScheduled around queue = some after) :
    Takes (some context) queue.getNextSpanIfScheduled.2 context after := by
  unfold requestNextScheduled at requested
  dsimp only at requested
  split_ifs at requested
  · obtain ⟨height, needed⟩ := sendRequest_keeps requested
    exact .erase context rfl (.of_eq rfl rfl) height needed
  · exact .front (settleNoSpan_dropsFront requested)

variable {forceNextSpan : Bool} {needed : List (Hash × Nat)}

/-- The connection when no span can be reserved for it and `force_next_span` is off. -/
def unreserved (around : Surroundings) (context : ConnectionContext) (queue : BlockQueue Entry)
    (forceNextSpan : Bool) : Option ConnectionContext :=
  let skipped := (context.skipUnneededHashes around queue false).2
  if forceNextSpan = false ∧ (queue.reserveSpan (skipped.spanRequest around)).1.2 = 0 then
    some skipped
  else none

theorem requestNeeded_takes
    (requested : context.requestNeeded around queue forceNextSpan = some (after, later)) :
    Takes (unreserved around context queue forceNextSpan) queue.getNextSpanIfScheduled.2 context
      after := by
  unfold requestNeeded at requested
  dsimp only at requested
  have skips := skipUnneededHashes_dropsFront around context queue false
  split_ifs at requested with inconsistent nothing reserved forced
  · obtain ⟨result, settled, ⟨⟩⟩ := Option.map_eq_some_iff.mp requested
    exact .clear (requestChain_needed settled)
  · obtain ⟨result, settled, ⟨⟩⟩ := Option.map_eq_some_iff.mp requested
    exact .front (skips.trans (settleNothingLeft_dropsFront settled))
  · obtain ⟨result, settled, ⟨⟩⟩ := Option.map_eq_some_iff.mp requested
    exact .front (skips.trans (requestReserved_dropsFront settled))
  · obtain ⟨result, settled, ⟨⟩⟩ := Option.map_eq_some_iff.mp requested
    exact .front (skips.trans (settleNoSpan_dropsFront settled))
  · obtain ⟨result, settled, ⟨⟩⟩ := Option.map_eq_some_iff.mp requested
    rw [BlockQueue.reserveSpan_eq_of_zero (by omega)] at settled
    rw [unreserved, if_pos ⟨by simpa using forced, by omega⟩]
    exact (requestNextScheduled_takes settled).after_dropsFront skips

theorem requestObjects_takes
    (requested : context.requestObjects around queue forceNextSpan = some (after, later)) :
    Takes (unreserved around context queue forceNextSpan) queue.getNextSpanIfScheduled.2 context
      after := by
  unfold requestObjects at requested
  dsimp only at requested
  split_ifs at requested
  · obtain ⟨result, sent, ⟨⟩⟩ := Option.map_eq_some_iff.mp requested
    obtain ⟨height, needed⟩ := sendRequest_keeps sent
    exact .front (.of_eq height needed)
  · exact requestNeeded_takes requested
  · obtain ⟨result, settled, ⟨⟩⟩ := Option.map_eq_some_iff.mp requested
    exact .clear (requestChain_needed settled)

theorem decideRequest_dropsFront (around : Surroundings)
    (context : ConnectionContext) (queue : BlockQueue Entry) :
    match context.decideRequest around queue with
    | .result answer => ∀ after, answer = some after → DropsFront context after
    | .proceed after _ => DropsFront context after := by
  have skips := skipUnneededHashes_dropsFront around context queue true
  have keeps : ∀ state, DropsFront context
      { (context.skipUnneededHashes around queue true).2 with state := state } :=
    fun state => skips.trans (.of_eq rfl rfl)
  unfold decideRequest
  dsimp only
  split_ifs
  · intro after settled
    exact skips.trans (settleNothingLeft_dropsFront settled)
  · intro after settled
    cases settled
  · exact keeps .synchronizing
  · exact keeps .synchronizing
  · intro after settled
    cases settled
    exact keeps .standby
  · intro after settled
    cases settled
  · intro after settled
    cases settled
    exact keeps .standby

def scheduledHashes (around : Surroundings) (queue : BlockQueue Entry) : List Hash :=
  (queue.flushStaleSpans around.liveConnections).getNextSpanIfScheduled.2

/-- The corner case of `request_missing_objects`. -/
def cornerCase (around : Surroundings) (context : ConnectionContext) (queue : BlockQueue Entry)
    (forceNextSpan : Bool) : Option ConnectionContext :=
  let queue := queue.flushStaleSpans around.liveConnections
  if forceNextSpan then none
  else
    match context.decideRequest around queue with
    | .result _ => none
    | .proceed context forceNextSpan => unreserved around context queue forceNextSpan

theorem requestMissingObjects_takes
    (requested : context.requestMissingObjects around queue forceNextSpan = some (after, later)) :
    Takes (cornerCase around context queue forceNextSpan) (scheduledHashes around queue) context
      after := by
  unfold requestMissingObjects at requested
  unfold cornerCase
  dsimp only at requested ⊢
  split_ifs at requested ⊢
  · exact requestObjects_takes requested
  · have drops := decideRequest_dropsFront around context
      (queue.flushStaleSpans around.liveConnections)
    cases decided : context.decideRequest around
        (queue.flushStaleSpans around.liveConnections) with
    | result answer =>
      rw [decided] at drops requested
      obtain ⟨result, settled, ⟨⟩⟩ := Option.map_eq_some_iff.mp requested
      exact .front (drops _ settled)
    | proceed proceeding forced =>
      rw [decided] at drops requested
      exact (requestObjects_takes requested).after_dropsFront drops

/-! ## Erasing single hashes -/

theorem eraseP_eq_filter (distinct : (needed.map Prod.fst).Nodup) (hash : Hash) :
    needed.eraseP (fun object => decide (object.1 = hash)) =
      needed.filter fun object => decide (object.1 ≠ hash) := by
  induction needed with
  | nil => rfl
  | cons object rest ih =>
    rw [map_cons, nodup_cons] at distinct
    by_cases same : object.1 = hash
    · rw [eraseP_cons_of_pos (by simpa using same), filter_cons_of_neg (by simpa using same)]
      symm
      rw [filter_eq_self]
      intro other mem
      rw [decide_eq_true_eq]
      intro eq
      apply distinct.1
      rw [same, ← eq]
      exact mem_map_of_mem mem
    · rw [eraseP_cons_of_neg (by simpa using same),
        filter_cons_of_pos (by simpa using same), ih distinct.2]

theorem eraseHashes_eq_filter (distinct : (needed.map Prod.fst).Nodup) (hashes : List Hash) :
    eraseHashes needed hashes = needed.filter fun object => decide (object.1 ∉ hashes) := by
  induction hashes generalizing needed with
  | nil => simp [eraseHashes]
  | cons hash hashes ih =>
    have step : eraseHashes needed (hash :: hashes) =
        eraseHashes (needed.filter fun object => decide (object.1 ≠ hash))
          hashes := by
      rw [← eraseP_eq_filter distinct]
      rfl
    have kept : ((needed.filter fun object => decide (object.1 ≠ hash)).map Prod.fst).Nodup :=
      distinct.sublist (filter_sublist.map Prod.fst)
    rw [step, ih kept, filter_filter]
    apply filter_congr
    intro object _
    simp [Bool.and_comm]

def ScheduledFirst (scheduled hashes : List Hash) : Prop :=
  hashes.Pairwise fun earlier later => later ∈ scheduled → earlier ∈ scheduled

theorem eraseHashes_eq_dropWhile (distinct : (needed.map Prod.fst).Nodup)
    (first : ScheduledFirst scheduled (needed.map Prod.fst)) : eraseHashes needed scheduled =
      needed.dropWhile fun object => decide (object.1 ∈ scheduled) := by
  rw [eraseHashes_eq_filter distinct]
  clear distinct
  induction needed with
  | nil => rfl
  | cons object rest ih =>
    rw [ScheduledFirst, map_cons, pairwise_cons] at first
    by_cases among : object.1 ∈ scheduled
    · rw [filter_cons_of_neg (by simpa using among),
        dropWhile_cons_of_pos (by simpa using among), ih first.2]
    · rw [dropWhile_cons_of_neg (by simpa using among), filter_eq_self]
      intro other mem
      rw [decide_eq_true_eq]
      rcases mem_cons.mp mem with rfl | later
      · exact among
      · exact fun found => among (first.1 _ (mem_map_of_mem later) found)

end ConnectionContext

/-! ## The heights of needed objects -/

open Option

namespace ConnectionContext

variable {Entry : Type} {around : Surroundings} {queue : BlockQueue Entry}

theorem collectNeeded_spec {entry : ChainEntry} {nUseBlocks index : Nat}
    {ids blocksFound : List Hash} {expectUnknown : Bool}
    {needed : List (Hash × Nat)} (left : index < nUseBlocks)
    (collected : collectNeeded around queue entry nUseBlocks ids index
      blocksFound expectUnknown = some needed) :
    needed.map Prod.fst = ids.take (nUseBlocks - index) ∧ (needed.map Prod.fst).Nodup ∧
      ∀ hash ∈ needed.map Prod.fst, hash ∉ blocksFound := by
  induction ids generalizing index blocksFound expectUnknown needed with
  | nil =>
    cases collected
    simp
  | cons hash rest ih =>
    rw [collectNeeded] at collected
    by_cases found : hash ∈ blocksFound
    · rw [if_pos found] at collected
      cases collected
    cases checked : checkAnnounced around queue entry.startHeight index expectUnknown hash with
    | none => simp [checked] at collected
    | some unknown =>
      simp only [checked] at collected
      split_ifs at collected with last
      · cases collected
        rw [show nUseBlocks - index = 1 by omega]
        simp [found]
      · obtain ⟨others, collectedRest, rfl⟩ := map_eq_some_iff.mp collected
        obtain ⟨taken, distinct, fresh⟩ := ih (by omega) collectedRest
        rw [show nUseBlocks - index = nUseBlocks - (index + 1) + 1 by omega,
          map_cons, taken]
        rw [taken] at distinct fresh
        refine ⟨rfl, nodup_cons.mpr ⟨?_, distinct⟩, ?_⟩
        · intro mem
          exact fresh hash mem (mem_cons_self ..)
        · intro other mem
          rcases mem_cons.mp mem with rfl | later
          · exact found
          · exact fun before => fresh other later (mem_cons_of_mem _ before)

end ConnectionContext

def ChainEntry.announced (entry : ChainEntry) (height : Nat) : Option Hash :=
  if entry.startHeight ≤ height then entry.blockIds[height - entry.startHeight]?
  else none

namespace ConnectionContext

variable {Entry : Type} {around : Surroundings} {entry : ChainEntry}
  {before after context : ConnectionContext} {queue later : BlockQueue Entry}

/-- Announced blocks of consecutive heights that end with the last response height. -/
structure Follows (context : ConnectionContext) (entry : ChainEntry) : Prop where
  fits : context.neededObjects.length ≤ context.lastResponseHeight + 1
  announced : ∀ index object, context.neededObjects[index]? = some object →
    entry.announced (context.lastResponseHeight + 1 -
      context.neededObjects.length + index) = some object.1

structure Sound (context : ConnectionContext) (entry : ChainEntry) : Prop
    extends Follows context entry where
  distinct : (context.neededObjects.map Prod.fst).Nodup

theorem sound_of_nil (none : context.neededObjects = []) : Sound context entry where
  fits := by simp [none]
  announced := by simp [none]
  distinct := by simp [none]

theorem Sound.dropsFront (sound : Sound before entry) (drops : DropsFront before after) :
    Sound after entry := by
  obtain ⟨height, count, needed⟩ := drops
  have fits := sound.fits
  refine ⟨⟨?_, ?_⟩, ?_⟩
  · rw [needed, length_drop]
    omega
  · intro index object found
    rw [needed, List.getElem?_drop] at found
    have lt := (List.getElem?_eq_some_iff.mp found).1
    rw [needed, length_drop, ← sound.announced _ _ found]
    congr 1
    omega
  · rw [needed, map_drop]
    exact sound.distinct.sublist (drop_sublist ..)

theorem Sound.takes {scheduled : List Hash} {corner : Option ConnectionContext}
    (sound : Sound before entry)
    (first : ∀ middle ∈ corner, ScheduledFirst scheduled (middle.neededObjects.map Prod.fst))
    (takes : Takes corner scheduled before after) : Sound after entry := by
  cases takes with
  | clear none => exact sound_of_nil none
  | front drops => exact sound.dropsFront drops
  | erase middle entered drops height needed =>
    have kept := sound.dropsFront drops
    rw [eraseHashes_eq_dropWhile kept.distinct (first middle entered),
      ListFacts.dropWhile_eq_drop] at needed
    exact kept.dropsFront ⟨height, _, needed⟩

theorem sound_takeOver (context : ConnectionContext) {nUseBlocks : Nat} {needed : List (Hash × Nat)}
    (taken : needed.map Prod.fst = entry.blockIds.take nUseBlocks)
    (distinct : (needed.map Prod.fst).Nodup) (some : 0 < nUseBlocks)
    (enough : nUseBlocks ≤ entry.blockIds.length)
    (low : entry.startHeight + entry.blockIds.length < 2 ^ 64) :
    Sound (context.takeOver entry nUseBlocks needed) entry := by
  have height : (context.takeOver entry nUseBlocks needed).lastResponseHeight + 1 =
      entry.startHeight + nUseBlocks := by
    have unused : subMod 64 entry.blockIds.length nUseBlocks =
        entry.blockIds.length - nUseBlocks := subMod_of_le (by omega) enough
    rw [takeOver, subMod_of_le (by omega) (by omega)]
    dsimp only
    omega
  have size : needed.length = nUseBlocks := by
    rw [← length_map, taken, List.length_take]
    omega
  refine ⟨⟨?_, ?_⟩, distinct⟩
  · rw [height]
    exact size.trans_le (Nat.le_add_left ..)
  intro index object found
  have lt : index < needed.length := (List.getElem?_eq_some_iff.mp found).1
  have announced : (needed.map Prod.fst)[index]? = Option.some object.1 := by
    rw [List.getElem?_map]
    exact congrArg (Option.map Prod.fst) found
  rw [taken, List.getElem?_take_of_lt (by omega)] at announced
  rw [show (context.takeOver entry nUseBlocks needed).neededObjects.length
      = nUseBlocks from size, ChainEntry.announced, if_pos (by omega), ← announced]
  congr 1
  omega

theorem takeOverEntry_sound (taken : context.takeOverEntry around queue entry = some after) :
    Sound after entry := by
  unfold takeOverEntry at taken
  split_ifs at taken with refused
  obtain ⟨⟨nUseBlocks, hashCheck⟩, prevalidated, taken⟩ := bind_eq_some_iff.mp taken
  dsimp only at taken
  split_ifs at taken with unusable
  obtain ⟨needed, collected, rfl⟩ := map_eq_some_iff.mp taken
  simp only [acceptsEntry, Bool.not_eq_false, Bool.and_eq_true, decide_eq_true_eq] at refused
  obtain ⟨⟨⟨⟨⟨⟨⟨⟨-, -⟩, some⟩, total⟩, start⟩, -⟩, bounded⟩, count⟩, -⟩ := refused
  rw [cryptonoteMaxBlockNumber] at bounded
  obtain ⟨used, _, run, enough, -⟩ := Prevalidation.prevalidateBlockHashes_cases around.groupHash
    around.hashTables around.mainChain entry.startHeight entry.blockIds entry.blockWeights
  obtain ⟨rfl, -⟩ := Prod.mk.inj (Option.some.inj (run.symm.trans prevalidated))
  obtain ⟨announced, distinct, -⟩ := collectNeeded_spec (by omega) collected
  exact sound_takeOver context announced distinct (by omega) enough (by omega)

/-- In the corner case, the needed hashes of the next scheduled span come before all others. -/
def ComesFirst (around : Surroundings) (queue : BlockQueue Entry) (context : ConnectionContext)
    (forceNextSpan : Bool) : Prop :=
  ∀ corner ∈ cornerCase around context queue forceNextSpan,
    ScheduledFirst (scheduledHashes around queue) (corner.neededObjects.map Prod.fst)

end ConnectionContext

/-! ## Runs -/

/-- A connection with the block queue and, for reference, the chain its peer
announced last. -/
structure SyncLink (Entry : Type) where
  context : ConnectionContext
  queue : BlockQueue Entry
  entry : ChainEntry

/-- A call of one of the functions that change the needed objects, or of the
queue by anyone. -/
inductive SyncCall (Entry : Type)
  | handleResponseChainEntry (around : Surroundings) (entry : ChainEntry)
  | skipUnneededHashes (around : Surroundings) (checkBlockQueue : Bool)
  | requestMissingObjects (around : Surroundings) (forceNextSpan : Bool)
  | queueCall (call : QueueCall Entry)

namespace SyncLink

open ConnectionContext

variable {Entry : Type} {link after : SyncLink Entry}

def perform (link : SyncLink Entry) : SyncCall Entry → Option (SyncLink Entry)
  | .handleResponseChainEntry around entry =>
    (link.context.handleResponseChainEntry around link.queue entry).map
      fun after => ⟨after.1, after.2, entry⟩
  | .skipUnneededHashes around checkBlockQueue =>
    some { link with context :=
      (link.context.skipUnneededHashes around link.queue checkBlockQueue).2 }
  | .requestMissingObjects around forceNextSpan =>
    (link.context.requestMissingObjects around link.queue forceNextSpan).map
      fun after => ⟨after.1, after.2, link.entry⟩
  | .queueCall call => some { link with queue := link.queue.perform call }

def SpanComesFirst (link : SyncLink Entry) : SyncCall Entry → Prop
  | .handleResponseChainEntry around entry =>
    ∀ context ∈ link.context.takeOverEntry around link.queue entry,
      ComesFirst around link.queue context false
  | .requestMissingObjects around forceNextSpan =>
    ComesFirst around link.queue link.context forceNextSpan
  | _ => True

/-- The states of a connection from its start on, over calls that are allowed. -/
inductive Run (allowed : SyncLink Entry → SyncCall Entry → Prop) : SyncLink Entry → Prop
  | start (context : ConnectionContext) (entry : ChainEntry)
      (none : context.neededObjects = []) : Run allowed ⟨context, .empty, entry⟩
  | call (link : SyncLink Entry) (call : SyncCall Entry)
      (before : Run allowed link) (allow : allowed link call)
      (after : SyncLink Entry) (performed : link.perform call = some after) :
      Run allowed after

theorem sound_perform {call : SyncCall Entry} (sound : link.context.Sound link.entry)
    (first : link.SpanComesFirst call) (performed : link.perform call = some after) :
    after.context.Sound after.entry := by
  cases call with
  | handleResponseChainEntry around entry =>
    obtain ⟨result, handled, rfl⟩ := map_eq_some_iff.mp performed
    obtain ⟨context, taken, handled⟩ := bind_eq_some_iff.mp handled
    obtain ⟨⟨requesting, queue⟩, requested, rfl⟩ := map_eq_some_iff.mp handled
    have kept := (takeOverEntry_sound taken).takes (first context taken)
      (requestMissingObjects_takes requested)
    exact ⟨⟨kept.fits, kept.announced⟩, kept.distinct⟩
  | skipUnneededHashes around checkBlockQueue =>
    cases performed
    exact sound.dropsFront (skipUnneededHashes_dropsFront ..)
  | requestMissingObjects around forceNextSpan =>
    obtain ⟨result, requested, rfl⟩ := map_eq_some_iff.mp performed
    exact sound.takes first (requestMissingObjects_takes requested)
  | queueCall call =>
    cases performed
    exact sound

/-- When the hashes of the next scheduled span come first in every corner case, the needed objects
are consecutive announced blocks up to the last response height. -/
theorem Run.neededObjects_follow (run : Run SpanComesFirst link) :
    link.context.Follows link.entry := by
  suffices sound : link.context.Sound link.entry from sound.toFollows
  induction run with
  | start context entry none => exact sound_of_nil none
  | call link call before first after performed ih => exact sound_perform ih first performed

/-! ## A span of another peer -/

def elevenBlocks : Surroundings where
  haveBlock hash := if hash ≤ 110 then some .mainChain else none
  blockIdByHeight height := 100 + height
  groupHash := ⟨fun _ => 0, fun _ => 0⟩
  hashTables := ⟨[], [], by decide, .inl rfl⟩
  mainChain := (List.range 11).map fun height => (100 + height, 0)
  currentBlockchainHeight := 11
  targetBlockchainHeight := 13
  blockchainPruningSeed := 0
  blockSyncSize := 20
  bpForkHeight := 0
  shortChainHistory := [110]
  syncPrunedBlocks := false
  liveConnections := [1, 2, 3]
  queueDataSize := 0
  blockQueueSizeThreshold := 100
  shouldDropConnection := false
  shouldDownloadNextSpan := false
  shouldAskForPrunedData _ := false
  syncLockFree := false
  additionWedged := false

def awaitingChain : ConnectionContext where
  connectionId := 1
  isIncome := false
  state := .synchronizing
  neededObjects := []
  requestedObjects := ∅
  remoteBlockchainHeight := 13
  lastResponseHeight := 0
  lastKnownHash := nullHash
  pruningSeed := 0
  expectHeight := 11
  expectResponse := .chainEntry
  numRequested := 0

def twoMoreBlocks : ChainEntry :=
  ⟨10, 13, [110, 111, 112], []⟩

def offerOne (connectionId : ConnectionId) (height : Nat) (hash : Hash) : QueueCall Unit :=
  .reserveSpan ⟨height, height, 20, connectionId, false, 0, 0, 13, [(hash, 0)]⟩

def awaitingLink : SyncLink Unit :=
  ⟨awaitingChain, .empty, twoMoreBlocks⟩

def performAll : List (SyncCall Entry) → SyncLink Entry → Option (SyncLink Entry)
  | [], link => some link
  | call :: calls, link => (link.perform call).bind (performAll calls)

theorem Run.performAll {allowed : SyncLink Entry → SyncCall Entry → Prop}
    (always : ∀ link call, allowed link call) {calls : List (SyncCall Entry)}
    (run : Run allowed link) (performed : SyncLink.performAll calls link = some after) :
    Run allowed after := by
  induction calls generalizing link with
  | nil =>
    cases performed
    exact run
  | cons call calls ih =>
    obtain ⟨middle, first, rest⟩ := bind_eq_some_iff.mp performed
    exact ih (.call link call run (always link call) middle first) rest

theorem twoMoreBlocks_follow :
    ∃ link : SyncLink Unit, Run SpanComesFirst link ∧ link.context.neededObjects = [(112, 0)] ∧
      link.context.Follows link.entry := by
  let around := { elevenBlocks with blockSyncSize := 1 }
  have needed : (awaitingLink.perform (.handleResponseChainEntry around twoMoreBlocks)).map
        (·.context.neededObjects) = some [(112, 0)] := by
    decide +kernel
  obtain ⟨link, performed, left⟩ := map_eq_some_iff.mp needed
  have run : Run SpanComesFirst link := by
    refine .call awaitingLink _ (.start _ _ rfl) ?_ link performed
    intro context taken corner entered
    show ScheduledFirst [] _
    exact pairwise_of_forall fun _ _ listed => absurd listed not_mem_nil
  exact ⟨link, run, left, run.neededObjects_follow⟩

/-- Another peer offered block 112 lower; requesting its span again leaves block 111 in its place.
-/
theorem scatteredSpan_not_follow :
    ∃ link : SyncLink Unit, Run (fun _ _ => True) link ∧ ¬link.context.Follows link.entry := by
  let calls : List (SyncCall Unit) :=
    [.queueCall (offerOne 2 5 112), .queueCall (offerOne 3 11 111),
      .handleResponseChainEntry elevenBlocks twoMoreBlocks]
  have needed : (performAll calls awaitingLink).map (fun link =>
      (link.context.neededObjects, link.context.lastResponseHeight,
        link.entry.announced 12)) = some ([(111, 0)], 12, some 112) := by
    decide +kernel
  obtain ⟨link, performed, left⟩ := map_eq_some_iff.mp needed
  simp at left
  obtain ⟨objects, height, announced⟩ := left
  refine ⟨link, .performAll (fun _ _ => trivial) (.start _ _ rfl) performed, ?_⟩
  intro follows
  have first := follows.announced 0 _ (by rw [objects]; rfl)
  rw [objects, height] at first
  cases announced.symm.trans first

end SyncLink

end LodeChain

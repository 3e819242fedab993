import LodeChain.IncrementalReader
import LodeChain.WrappedArithmetic

/-!
# The levin receiver

`handle_recv` of a levin connection appends what has arrived to a buffer and takes packets off it.
-/

namespace LodeChain

open List WrappedArithmetic

structure NetBuffer where
  storage : List UInt8
  offset : Nat
  capacity : Nat
  used : offset ≤ storage.length

namespace NetBuffer

variable (buffer : NetBuffer)

def bytes : List UInt8 :=
  buffer.storage.drop buffer.offset

def size : Nat :=
  buffer.storage.length - buffer.offset

def empty : NetBuffer :=
  ⟨[], 0, 0, Nat.le_refl 0⟩

def moved (capacity : Nat) : NetBuffer :=
  ⟨buffer.storage.drop buffer.offset, 0, capacity, Nat.zero_le _⟩

/-- Where `append` makes room, in the arithmetic of `size_t`. A vector may reserve more than it is
asked for: `granted`. -/
def prepared (sz granted : Nat) : NetBuffer :=
  let avail := subMod 64 buffer.capacity buffer.storage.length
  let wanted := addMod 64 buffer.size sz
  if avail < sz then
    if wanted ≤ buffer.capacity then buffer.moved buffer.capacity
    else buffer.moved (max granted (addMod 64 (mulMod 64 wanted 3 / 2) 4095 / 4096 * 4096))
  else if buffer.size ≤ 4096 ∧ 4096 * 16 < buffer.offset ∧
      buffer.capacity / 2 ≤ buffer.offset then
    buffer.moved buffer.capacity
  else buffer

def extended (data : List UInt8) : NetBuffer :=
  ⟨buffer.storage ++ data, buffer.offset, max buffer.capacity (buffer.storage.length + data.length),
    by
      rw [length_append]
      exact Nat.le_add_right_of_le buffer.used⟩

def append (data : List UInt8) (granted : Nat) : NetBuffer :=
  (buffer.prepared data.length granted).extended data

/-- `erase`; it throws when there are too few bytes, and here changes nothing. -/
def erase (sz : Nat) : NetBuffer :=
  if enough : buffer.offset + sz ≤ buffer.storage.length then
    if buffer.offset + sz = buffer.storage.length then ⟨[], 0, buffer.capacity, Nat.le_refl 0⟩
    else ⟨buffer.storage, buffer.offset + sz, buffer.capacity, enough⟩
  else buffer

def carve (sz : Nat) : NetBuffer :=
  if enough : buffer.offset + sz ≤ buffer.storage.length then
    ⟨buffer.storage, buffer.offset + sz, buffer.capacity, enough⟩
  else buffer

theorem length_bytes : buffer.bytes.length = buffer.size := by
  rw [bytes, length_drop, size]

theorem bytes_prepared (sz granted : Nat) : (buffer.prepared sz granted).bytes = buffer.bytes := by
  unfold prepared
  dsimp only
  split_ifs
  all_goals rfl

theorem bytes_append (data : List UInt8) (granted : Nat) :
    (buffer.append data granted).bytes = buffer.bytes ++ data := by
  rw [← buffer.bytes_prepared data.length granted]
  exact drop_append_of_le_length (buffer.prepared data.length granted).used

theorem bytes_erase {buffer : NetBuffer} {sz : Nat} (enough : sz ≤ buffer.bytes.length) :
    (buffer.erase sz).bytes = buffer.bytes.drop sz := by
  have used := buffer.used
  rw [bytes, length_drop] at enough
  rw [erase, dif_pos (by omega)]
  split_ifs with all
  · rw [bytes, bytes, drop_drop, all, drop_length]
    rfl
  · rw [bytes, bytes, drop_drop]

theorem bytes_carve {buffer : NetBuffer} {sz : Nat} (enough : sz ≤ buffer.bytes.length) :
    (buffer.carve sz).bytes = buffer.bytes.drop sz := by
  have used := buffer.used
  rw [bytes, length_drop] at enough
  rw [carve, dif_pos (by omega), bytes, bytes, drop_drop]

/-! ## A buffer and a queue -/

inductive Call
  | append (data : List UInt8) (granted : Nat)
  | erase (sz : Nat)
  | carve (sz : Nat)
  | span (sz : Nat)
  | size

inductive Answer
  | done
  | bytes (span : List UInt8)
  | size (size : Nat)
  | threw
  deriving DecidableEq

def perform : Call → NetBuffer × Answer
  | .append data granted =>
    if buffer.storage.length < subMod 64 (2 ^ 64 - 1) data.length then
      (buffer.append data granted, .done)
    else (buffer, .threw)
  | .erase sz =>
    if addMod 64 buffer.offset sz ≤ buffer.storage.length then (buffer.erase sz, .done)
    else (buffer, .threw)
  | .carve sz =>
    if sz ≤ buffer.size then (buffer.carve sz, .bytes (buffer.bytes.take sz)) else (buffer, .threw)
  | .span sz => (buffer, if sz ≤ buffer.size then .bytes (buffer.bytes.take sz) else .threw)
  | .size => (buffer, .size buffer.size)

/-- A queue of bytes. -/
def performQueue (queue : List UInt8) : Call → List UInt8 × Answer
  | .append data _ => (queue ++ data, .done)
  | .erase sz => if sz ≤ queue.length then (queue.drop sz, .done) else (queue, .threw)
  | .carve sz =>
    if sz ≤ queue.length then (queue.drop sz, .bytes (queue.take sz)) else (queue, .threw)
  | .span sz => (queue, if sz ≤ queue.length then .bytes (queue.take sz) else .threw)
  | .size => (queue, .size queue.length)

/-- The answers to a sequence of calls. -/
def answers {State : Type} (perform : State → Call → State × Answer) : State → List Call →
    List Answer
  | _, [] => []
  | state, call :: calls =>
    (perform state call).2 :: answers perform (perform state call).1 calls

def Call.appended : Call → Nat
  | .append data _ => data.length
  | _ => 0

/-- Numbers are of type `size_t`, sizes that are asked for below 2^62. -/
def Call.Small : Call → Prop
  | .append _ granted => granted < 2 ^ 64
  | .erase sz | .carve sz | .span sz => sz < 2 ^ 62
  | .size => True

/-- What holds of a buffer to which so many bytes were appended. -/
structure Holds (appended : Nat) : Prop where
  within : buffer.storage.length ≤ buffer.capacity
  word : buffer.capacity < 2 ^ 64
  counted : buffer.storage.length ≤ appended

variable {buffer : NetBuffer} {appended : Nat}

theorem Holds.moved {capacity : Nat} (holds : buffer.Holds appended)
    (enough : buffer.size ≤ capacity) (word : capacity < 2 ^ 64) :
    (buffer.moved capacity).Holds appended := by
  have shorter : (buffer.storage.drop buffer.offset).length ≤ buffer.storage.length := by simp
  exact ⟨by simpa [NetBuffer.moved, size] using enough, word, shorter.trans holds.counted⟩

theorem Holds.extended {data : List UInt8} (holds : buffer.Holds appended)
    (few : appended + data.length < 2 ^ 62) :
    (buffer.extended data).Holds (appended + data.length) := by
  obtain ⟨-, word, counted⟩ := holds
  refine ⟨?_, max_lt word (by omega), ?_⟩ <;> simp [NetBuffer.extended, counted]

theorem Holds.prepared {sz granted : Nat} (holds : buffer.Holds appended)
    (word : granted < 2 ^ 64) (few : appended + sz < 2 ^ 62) :
    (buffer.prepared sz granted).Holds appended := by
  obtain ⟨within, capacity, counted⟩ := id holds
  have shorter : buffer.size ≤ buffer.storage.length := Nat.sub_le _ _
  rw [NetBuffer.prepared, subMod_of_le capacity within, addMod_of_lt (by omega),
    mulMod_of_lt (by omega), addMod_of_lt (by omega)]
  split_ifs
  · exact holds.moved (by omega) capacity
  · exact holds.moved (by omega) (max_lt word (by omega))
  · exact holds.moved (by omega) capacity
  · exact holds

theorem Holds.perform {call : Call} (holds : buffer.Holds appended) (small : call.Small)
    (few : appended + call.appended < 2 ^ 62) :
    (buffer.perform call).2 = (performQueue buffer.bytes call).2 ∧
      (buffer.perform call).1.bytes = (performQueue buffer.bytes call).1 ∧
      (buffer.perform call).1.Holds (appended + call.appended) := by
  have used := buffer.used
  have length : buffer.bytes.length = buffer.size := buffer.length_bytes
  have size : buffer.size = buffer.storage.length - buffer.offset := rfl
  have counted := holds.counted
  cases call with
  | append data granted =>
    dsimp only [Call.appended] at few
    rw [NetBuffer.perform, subMod_of_le (by omega) (by omega), if_pos (by omega)]
    exact ⟨rfl, buffer.bytes_append data granted, (holds.prepared small few).extended few⟩
  | erase sz =>
    dsimp only [Call.Small, Call.appended] at small few
    rw [NetBuffer.perform, addMod_of_lt (by omega), performQueue, length]
    by_cases enough : sz ≤ buffer.size
    · rw [if_pos (by omega), if_pos enough]
      refine ⟨rfl, bytes_erase (by omega), ?_⟩
      rw [erase, dif_pos (by omega)]
      split_ifs
      · exact ⟨Nat.zero_le _, holds.word, Nat.zero_le _⟩
      · exact ⟨holds.within, holds.word, counted⟩
    · rw [if_neg (by omega), if_neg enough]
      exact ⟨rfl, rfl, holds⟩
  | carve sz =>
    rw [NetBuffer.perform, performQueue, length]
    by_cases enough : sz ≤ buffer.size
    · rw [if_pos enough, if_pos enough]
      refine ⟨rfl, bytes_carve (by omega), ?_⟩
      rw [carve, dif_pos (by omega)]
      exact ⟨holds.within, holds.word, counted⟩
    · rw [if_neg enough, if_neg enough]
      exact ⟨rfl, rfl, holds⟩
  | span sz =>
    rw [NetBuffer.perform, performQueue, length]
    exact ⟨rfl, rfl, holds⟩
  | size =>
    rw [NetBuffer.perform, performQueue, length]
    exact ⟨rfl, rfl, holds⟩

/-- A buffer answers as a queue of bytes does. -/
theorem Holds.answers_eq {calls : List Call} (holds : buffer.Holds appended)
    (small : ∀ call ∈ calls, call.Small)
    (few : appended + (calls.map Call.appended).sum < 2 ^ 62) :
    answers NetBuffer.perform buffer calls = answers performQueue buffer.bytes calls := by
  induction calls generalizing buffer appended with
  | nil => rfl
  | cons call calls ih =>
    rw [map_cons, sum_cons, ← add_assoc] at few
    rw [forall_mem_cons] at small
    obtain ⟨answer, queue, after⟩ := holds.perform small.1 (by omega)
    rw [answers, answers, answer, ih after small.2 few, queue]

/-- A new buffer, whose vector has any capacity, answers every sequence of calls as a queue does. -/
theorem answers_reserved {capacity : Nat} {calls : List Call} (word : capacity < 2 ^ 64)
    (small : ∀ call ∈ calls, call.Small) (few : (calls.map Call.appended).sum < 2 ^ 62) :
    answers perform (empty.moved capacity) calls = answers performQueue [] calls :=
  Holds.answers_eq ⟨Nat.zero_le _, word, Nat.le_refl 0⟩ small (by rwa [Nat.zero_add])

theorem answers_reserved_carve :
    answers perform (empty.moved 0) [.append [1, 2] 0, .carve 1, .erase 2, .span 1] =
      [.done, .bytes [1], .threw, .bytes [2]] :=
  answers_reserved (by decide) (by simp [Call.Small]) (by decide)

end NetBuffer

/-! ## The levin receiver -/

open IncrementalReader

namespace Levin

abbrev Bytes := List UInt8

def levinSignature : Nat := 0x0101010101012101

def packetRequest : Nat := 1
def packetResponse : Nat := 2
def packetBegin : Nat := 4
def packetEnd : Nat := 8
def protocolVer1 : Nat := 1

/-- `bucket_head2`. -/
structure BucketHead where
  signature : Nat
  cb : Nat
  haveToReturnData : Nat
  command : Nat
  returnCode : Nat
  flags : Nat
  protocolVersion : Nat
  deriving DecidableEq

def headSize : Nat := 33

def BucketHead.ofBytes (bytes : Bytes) : BucketHead where
  signature := ofLittleEndian (bytes.take 8)
  cb := ofLittleEndian ((bytes.drop 8).take 8)
  haveToReturnData := ofLittleEndian ((bytes.drop 16).take 1)
  command := ofLittleEndian ((bytes.drop 17).take 4)
  returnCode := ofLittleEndian ((bytes.drop 21).take 4)
  flags := ofLittleEndian ((bytes.drop 25).take 4)
  protocolVersion := ofLittleEndian ((bytes.drop 29).take 4)

def BucketHead.has (head : BucketHead) (flag : Nat) : Bool :=
  head.flags &&& flag != 0

inductive StreamState where
  | head
  | body
  deriving DecidableEq

inductive Call where
  | invoke (command : Nat) (payload : Bytes)
  | notify (command : Nat) (payload : Bytes)
  deriving DecidableEq

inductive Refusal where
  | badCacheSize
  | badFragmentSize
  | packetSizeExceeded
  | signatureMismatch
  | headerSizeExceeded
  | fragmentsTooSmall
  | unexpectedResponse
  deriving DecidableEq

structure Limits where
  maxPacketSize : Nat
  maxBytes : Nat → Nat
  bounded : maxPacketSize < 2 ^ 64

def Limits.largest (limits : Limits) (command : Nat) : Nat :=
  min limits.maxPacketSize (limits.maxBytes command)

structure CacheOps (Cache : Type) where
  bytes : Cache → Bytes
  append : Cache → Bytes → Cache
  erase : Cache → Nat → Cache
  carve : Cache → Nat → Cache

structure CacheOps.Lawful {Cache : Type} (ops : CacheOps Cache) : Prop where
  bytes_append : ∀ cache data, ops.bytes (ops.append cache data) = ops.bytes cache ++ data
  bytes_erase : ∀ cache sz, sz ≤ (ops.bytes cache).length →
    ops.bytes (ops.erase cache sz) = (ops.bytes cache).drop sz
  bytes_carve : ∀ cache sz, sz ≤ (ops.bytes cache).length →
    ops.bytes (ops.carve cache sz) = (ops.bytes cache).drop sz

def bufferOps : CacheOps NetBuffer :=
  ⟨NetBuffer.bytes, fun buffer data => buffer.append data 0, NetBuffer.erase, NetBuffer.carve⟩

theorem bufferOps_lawful : bufferOps.Lawful :=
  ⟨fun buffer data => buffer.bytes_append data 0, fun _ _ => NetBuffer.bytes_erase,
    fun _ _ => NetBuffer.bytes_carve⟩

def listOps : CacheOps Bytes :=
  ⟨id, (· ++ ·), fun cache sz => cache.drop sz, fun cache sz => cache.drop sz⟩

structure Handler (Cache : Type) where
  cacheInBuffer : Cache
  fragmentBuffer : Bytes
  state : StreamState
  currentHead : BucketHead
  oponentProtocolVer : Nat

namespace Handler

variable {Cache : Type} (ops : CacheOps Cache) (limits : Limits) (handler : Handler Cache)

/-- A complete packet goes to the commands handler, unless it is a response. -/
def deliver (buffToInvoke : Bytes) : Step (Handler Cache) Call Refusal :=
  let head := handler.currentHead
  if handler.oponentProtocolVer = protocolVer1 ∧ head.has packetResponse then
    .close .unexpectedResponse
  else if head.haveToReturnData ≠ 0 then .next handler [.invoke head.command buffToInvoke]
  else .next handler [.notify head.command buffToInvoke]

def gather (fragment : Bytes) : Bytes :=
  (if handler.currentHead.has packetBegin then [] else handler.fragmentBuffer) ++ fragment

def takeFragment (buffToInvoke : Bytes) : Step (Handler Cache) Call Refusal :=
  let head := handler.currentHead
  if head.has packetBegin ∧ head.has packetEnd then .next handler []
  else
    let fragments := handler.gather buffToInvoke
    if ¬head.has packetEnd then .next { handler with fragmentBuffer := fragments } []
    else if fragments.length < headSize then .close .fragmentsTooSmall
    else
      let inner := BucketHead.ofBytes fragments
      if limits.largest inner.command < inner.cb then .close .headerSizeExceeded
      else
        { handler with fragmentBuffer := [], currentHead := inner }.deliver
          (fragments.drop headSize)

def takeBody : Step (Handler Cache) Call Refusal :=
  let head := handler.currentHead
  if (ops.bytes handler.cacheInBuffer).length < head.cb then .wait
  else
    let buffToInvoke := (ops.bytes handler.cacheInBuffer).take head.cb
    let carved := { handler with
      cacheInBuffer := ops.carve handler.cacheInBuffer head.cb
      state := .head }
    if head.has (packetRequest ||| packetResponse) then carved.deliver buffToInvoke
    else carved.takeFragment limits buffToInvoke

def takeHead : Step (Handler Cache) Call Refusal :=
  let bytes := ops.bytes handler.cacheInBuffer
  if bytes.length < headSize then
    if 8 ≤ bytes.length ∧ ofLittleEndian (bytes.take 8) ≠ levinSignature then
      .close .signatureMismatch
    else .wait
  else
    let phead := BucketHead.ofBytes bytes
    if phead.signature ≠ levinSignature then .close .signatureMismatch
    else if limits.largest phead.command < phead.cb then .close .headerSizeExceeded
    else
      .next { handler with
        cacheInBuffer := ops.erase handler.cacheInBuffer headSize
        state := .body
        currentHead := phead
        oponentProtocolVer := phead.protocolVersion } []

def step : Step (Handler Cache) Call Refusal :=
  match handler.state with
  | .body => handler.takeBody ops limits
  | .head => handler.takeHead ops limits

/-- `handle_recv`.  Every second round uses up a header, which bounds the number
of rounds. -/
def handleRecv (data : Bytes) : Outcome (Handler Cache) Call Refusal :=
  let cached := (ops.bytes handler.cacheInBuffer).length
  if limits.maxPacketSize < cached then ([], .error .badCacheSize)
  else if limits.maxPacketSize - cached < handler.fragmentBuffer.length then
    ([], .error .badFragmentSize)
  else if limits.maxPacketSize - cached - handler.fragmentBuffer.length < data.length then
    ([], .error .packetSizeExceeded)
  else
    drain (step ops limits) (2 * (cached + data.length) + 2)
      { handler with cacheInBuffer := ops.append handler.cacheInBuffer data }

def receive : Handler Cache → List Bytes → Outcome (Handler Cache) Call Refusal
  | handler, [] => ([], .ok handler)
  | handler, data :: chunks =>
    (handler.handleRecv ops limits data).andThen fun after => receive after chunks

def fresh (cache : Cache) (head : BucketHead) : Handler Cache :=
  ⟨cache, [], .head, head, 0⟩

/-! ## The cache as a list -/

def mapCache {Other : Type} (change : Cache → Other) (handler : Handler Cache) : Handler Other where
  cacheInBuffer := change handler.cacheInBuffer
  fragmentBuffer := handler.fragmentBuffer
  state := handler.state
  currentHead := handler.currentHead
  oponentProtocolVer := handler.oponentProtocolVer

def view : Handler Bytes :=
  handler.mapCache ops.bytes

variable {ops limits}

theorem deliver_mapCache {Other : Type} (change : Cache → Other)
    (handler : Handler Cache) (payload : Bytes) : (handler.mapCache change).deliver payload =
      (handler.deliver payload).map (mapCache change) := by
  simp only [deliver, apply_ite (Step.map (mapCache change))]
  rfl

theorem takeFragment_mapCache {Other : Type} (change : Cache → Other)
    (handler : Handler Cache) (payload : Bytes) :
    (handler.mapCache change).takeFragment limits payload =
      (handler.takeFragment limits payload).map (mapCache change) := by
  simp only [takeFragment, apply_ite (Step.map (mapCache change)), ← deliver_mapCache]
  rfl

theorem step_view (lawful : ops.Lawful) (handler : Handler Cache) :
    step listOps limits (handler.view ops) = (handler.step ops limits).map (view ops) := by
  rw [step, step, show (handler.view ops).state = handler.state from rfl]
  cases handler.state with
  | body =>
    simp [takeBody]
    rw [show (listOps.bytes (handler.view ops).cacheInBuffer) =
      ops.bytes _ from rfl,
      show (handler.view ops).currentHead = handler.currentHead from rfl]
    split_ifs with short ordinary
    · rfl
    · refine Eq.trans ?_ (deliver_mapCache _ _ _)
      simp [view, mapCache, listOps, lawful.bytes_carve _ _ (Nat.not_lt.mp short)]
    · refine Eq.trans ?_ (takeFragment_mapCache _ _ _)
      simp [view, mapCache, listOps, lawful.bytes_carve _ _ (Nat.not_lt.mp short)]
  | head =>
    simp only [takeHead]
    rw [show (listOps.bytes (handler.view ops).cacheInBuffer) =
      ops.bytes _ from rfl]
    split_ifs with short mismatch signature large
    · rfl
    · rfl
    · rfl
    · rfl
    · simp [view, mapCache, listOps, Step.map, lawful.bytes_erase _ _ (Nat.not_lt.mp short)]

theorem handleRecv_view (lawful : ops.Lawful) (handler : Handler Cache) (data : Bytes) :
    (handler.view ops).handleRecv listOps limits data =
      (handler.handleRecv ops limits data).map (view ops) := by
  simp [handleRecv]
  rw [show (listOps.bytes (handler.view ops).cacheInBuffer) =
      ops.bytes _ from rfl,
    show (handler.view ops).fragmentBuffer = handler.fragmentBuffer from rfl]
  split_ifs
  · rfl
  · rfl
  · rfl
  · rw [← drain_map (step_view lawful)]
    simp [view, mapCache, listOps, lawful.bytes_append]

theorem receive_view (lawful : ops.Lawful) (handler : Handler Cache) (chunks : List Bytes) :
    (handler.view ops).receive listOps limits chunks =
      (handler.receive ops limits chunks).map (view ops) := by
  induction chunks generalizing handler with
  | nil => rfl
  | cons data chunks ih =>
    rw [receive, receive, handleRecv_view lawful]
    obtain ⟨calls, result⟩ := handler.handleRecv ops limits data
    cases result with
    | error refusal => rfl
    | ok after =>
      simp only [Outcome.andThen, Outcome.map, Except.map]
      rw [ih]
      rfl

end Handler

/-! ## Chunks of a levin stream -/

theorem BucketHead.ofBytes_append {bytes : Bytes} (more : Bytes)
    (enough : headSize ≤ bytes.length) :
    BucketHead.ofBytes (bytes ++ more) = BucketHead.ofBytes bytes := by
  have field : ∀ start width, start + width ≤ 33 →
      ((bytes ++ more).drop start).take width = (bytes.drop start).take width := by
    intro start width within
    rw [headSize] at enough
    rw [drop_append_of_le_length (by omega), take_append_of_le_length (by rw [length_drop]; omega)]
  have first := field 0 8 (by omega)
  rw [drop_zero, drop_zero] at first
  simp [ofBytes, first, field 8 8 (by omega), field 16 1 (by omega), field 17 4 (by omega),
    field 21 4 (by omega), field 25 4 (by omega), field 29 4 (by omega)]

namespace Handler

variable {limits : Limits} {handler after : Handler Bytes} {calls : List Call}

def extend (handler : Handler Bytes) (data : Bytes) : Handler Bytes :=
  handler.mapCache (· ++ data)

def held (handler : Handler Bytes) : Nat :=
  handler.cacheInBuffer.length + handler.fragmentBuffer.length

variable {payload : Bytes} {chunks : List Bytes} {refusal : Refusal}

theorem deliver_next (stepped : handler.deliver payload = .next after calls) : after = handler := by
  simp [deliver] at stepped
  split_ifs at stepped <;> cases stepped <;> rfl

theorem length_gather (handler : Handler Bytes) (fragment : Bytes) :
    (handler.gather fragment).length ≤ handler.fragmentBuffer.length + fragment.length := by
  rw [gather]
  split_ifs <;> simp

theorem takeFragment_next (stepped : handler.takeFragment limits payload = .next after calls) :
    after.cacheInBuffer = handler.cacheInBuffer ∧ after.state = handler.state ∧
      after.fragmentBuffer.length ≤ handler.fragmentBuffer.length + payload.length := by
  simp only [takeFragment] at stepped
  split_ifs at stepped with noise last short large
  · cases stepped
    exact ⟨rfl, rfl, by omega⟩
  · rw [deliver_next stepped]
    exact ⟨rfl, rfl, by simp⟩
  · cases stepped
    exact ⟨rfl, rfl, handler.length_gather payload⟩

theorem step_next (stepped : step listOps limits handler = .next after calls) :
    ∃ used ≤ handler.cacheInBuffer.length, after.cacheInBuffer = handler.cacheInBuffer.drop used ∧
      after.fragmentBuffer.length ≤ handler.fragmentBuffer.length + used ∧
      (handler.state = .body ∧ after.state = .head ∨
        handler.state = .head ∧ after.state = .body ∧ used = headSize) := by
  rw [step] at stepped
  cases state : handler.state with
  | body =>
    simp [state, takeBody] at stepped
    split_ifs at stepped with short ordinary
    · rw [deliver_next stepped]
      exact ⟨handler.currentHead.cb, Nat.not_lt.mp short, rfl, by simp, Or.inl ⟨rfl, rfl⟩⟩
    · obtain ⟨cache, isHead, fragments⟩ := takeFragment_next stepped
      refine ⟨handler.currentHead.cb, Nat.not_lt.mp short, cache, ?_, Or.inl ⟨rfl, isHead⟩⟩
      rw [List.length_take] at fragments
      exact Nat.le_trans fragments (Nat.add_le_add_left (Nat.min_le_left _ _) _)
  | head =>
    simp [state, takeHead] at stepped
    split_ifs at stepped with short mismatch signature large
    cases stepped
    exact ⟨headSize, Nat.not_lt.mp short, rfl, by simp, Or.inr ⟨rfl, rfl, rfl⟩⟩

theorem takeBody_extend (data : Bytes) (moves : takeBody listOps limits handler ≠ .wait) :
    takeBody listOps limits (handler.extend data) =
      (takeBody listOps limits handler).map fun state => state.extend data := by
  have sameHead : (handler.extend data).currentHead = handler.currentHead := rfl
  have cache : listOps.bytes (handler.extend data).cacheInBuffer =
      handler.cacheInBuffer ++ data := rfl
  have plain : listOps.bytes handler.cacheInBuffer = handler.cacheInBuffer := rfl
  simp only [takeBody] at moves ⊢
  rw [sameHead, cache, plain]
  have enough : handler.currentHead.cb ≤ handler.cacheInBuffer.length := by
    by_contra short
    exact moves (if_pos (Nat.not_le.mp short))
  have still : ¬(handler.cacheInBuffer ++ data).length < handler.currentHead.cb := by
    rw [length_append]
    omega
  have carved : listOps.carve (handler.extend data).cacheInBuffer handler.currentHead.cb =
      handler.cacheInBuffer.drop handler.currentHead.cb ++ data :=
    drop_append_of_le_length enough
  let before : Handler Bytes := { handler with
    cacheInBuffer := handler.cacheInBuffer.drop handler.currentHead.cb
    state := .head }
  rw [if_neg (Nat.not_lt.mpr enough), take_append_of_le_length enough, carved]
  split_ifs with ordinary
  · exact deliver_mapCache (· ++ data) before _
  · exact takeFragment_mapCache (· ++ data) before _

theorem mismatch_append {cache : Bytes} (data : Bytes)
    (mismatch : 8 ≤ cache.length ∧ ofLittleEndian (cache.take 8) ≠ levinSignature) :
    (8 ≤ (cache ++ data).length ∧ ofLittleEndian ((cache ++ data).take 8) ≠ levinSignature) ∧
      (BucketHead.ofBytes (cache ++ data)).signature ≠ levinSignature := by
  have early : (cache ++ data).take 8 = cache.take 8 := take_append_of_le_length mismatch.1
  have length : 8 ≤ (cache ++ data).length := by
    rw [length_append]
    omega
  rw [BucketHead.ofBytes, early]
  exact ⟨⟨length, mismatch.2⟩, mismatch.2⟩

theorem takeHead_extend (data : Bytes) (moves : takeHead listOps limits handler ≠ .wait) :
    takeHead listOps limits (handler.extend data) =
      (takeHead listOps limits handler).map fun state => state.extend data := by
  have cache : listOps.bytes (handler.extend data).cacheInBuffer =
      handler.cacheInBuffer ++ data := rfl
  have plain : listOps.bytes handler.cacheInBuffer = handler.cacheInBuffer := rfl
  simp [takeHead] at moves ⊢
  rw [cache, plain]
  by_cases short : handler.cacheInBuffer.length < headSize
  · have mismatch : 8 ≤ handler.cacheInBuffer.length ∧
        ofLittleEndian (handler.cacheInBuffer.take 8) ≠ levinSignature := by
      by_contra fits
      exact moves ((if_pos short).trans (if_neg fits))
    obtain ⟨still, late⟩ := mismatch_append data mismatch
    split_ifs <;> rfl
  · have enough := Nat.not_lt.mp short
    have long : ¬(handler.cacheInBuffer ++ data).length < headSize := by
      rw [length_append]
      omega
    have erased : listOps.erase (handler.extend data).cacheInBuffer headSize =
        handler.cacheInBuffer.drop headSize ++ data :=
      drop_append_of_le_length enough
    rw [if_neg long, BucketHead.ofBytes_append data enough, erased]
    split_ifs <;> rfl

theorem step_extend (data : Bytes) (moves : step listOps limits handler ≠ .wait) :
    step listOps limits (handler.extend data) =
      (step listOps limits handler).map fun state => state.extend data := by
  have sameState : (handler.extend data).state = handler.state := rfl
  rw [step] at moves
  rw [step, step, sameState]
  cases state : handler.state with
  | body =>
    simp [state] at moves ⊢
    exact takeBody_extend data moves
  | head =>
    simp [state] at moves ⊢
    exact takeHead_extend data moves

def stepsLeft (handler : Handler Bytes) : Nat :=
  2 * handler.cacheInBuffer.length + if handler.state = .body then 1 else 0

theorem extend_extend (handler : Handler Bytes) (first second : Bytes) :
    (handler.extend first).extend second = handler.extend (first ++ second) := by
  simp [extend, mapCache]

theorem stepsLeft_lt (stepped : step listOps limits handler = .next after calls) :
    after.stepsLeft < handler.stepsLeft := by
  unfold stepsLeft
  obtain ⟨used, within, cache, -, ⟨isBody, isHead⟩ | ⟨isHead, isBody, rfl⟩⟩ := step_next stepped
  · rw [cache, isBody, isHead, length_drop]
    simp only [reduceCtorEq, ↓reduceIte]
    omega
  · rw [cache, isBody, length_drop]
    rw [headSize] at *
    simp only [↓reduceIte]
    omega

theorem step_extend_of_next (data : Bytes)
    (stepped : step listOps limits handler = .next after calls) :
    step listOps limits (handler.extend data) = .next (after.extend data) calls := by
  rw [step_extend data (by rw [stepped]; simp), stepped]
  rfl

theorem step_extend_of_close {reason : Refusal} (data : Bytes)
    (stepped : step listOps limits handler = .close reason) :
    step listOps limits (handler.extend data) = .close reason := by
  rw [step_extend data (by rw [stepped]; simp), stepped]
  rfl

def reader (limits : Limits) : Machine (Handler Bytes) UInt8 Call Refusal where
  step := step listOps limits
  extend := extend
  rank := stepsLeft
  extend_append := extend_extend
  rank_lt := stepsLeft_lt
  next_extend := step_extend_of_next
  close_extend := step_extend_of_close

/-! ## The limit -/

theorem held_step (stepped : step listOps limits handler = .next after calls) :
    after.held ≤ handler.held := by
  obtain ⟨used, within, cache, fragments, -⟩ := step_next stepped
  rw [held, held, cache, length_drop]
  omega

theorem handleRecv_eq (within : handler.held ≤ limits.maxPacketSize) (data : Bytes) :
    handler.handleRecv listOps limits data =
      if limits.maxPacketSize < handler.held + data.length then ([], .error .packetSizeExceeded)
      else
        (reader limits).settle (handler.extend data) := by
  have cached : (listOps.bytes handler.cacheInBuffer).length =
      handler.cacheInBuffer.length := rfl
  rw [held] at *
  simp [handleRecv]
  rw [if_neg (by omega), if_neg (by omega)]
  by_cases large : limits.maxPacketSize <
      handler.cacheInBuffer.length + handler.fragmentBuffer.length + data.length
  · rw [if_pos (by omega), if_pos large]
  · rw [if_neg (by omega), if_neg large]
    apply (reader limits).drain_rounds
    have longer : (listOps.append handler.cacheInBuffer data).length =
        handler.cacheInBuffer.length + data.length := length_append
    simp [reader, stepsLeft, longer]
    split_ifs <;> omega

theorem held_drain {rounds : Nat} (within : handler.held ≤ limits.maxPacketSize)
    (drained : drain (step listOps limits) rounds handler = (calls, .ok after)) :
    after.held ≤ limits.maxPacketSize :=
  drain_invariant (fun start stepped => Nat.le_trans (held_step stepped) start) within drained

theorem held_extend {data : Bytes} (fits : ¬limits.maxPacketSize < handler.held + data.length) :
    (handler.extend data).held ≤ limits.maxPacketSize := by
  rw [held] at *
  have : (handler.extend data).cacheInBuffer.length =
      handler.cacheInBuffer.length + data.length := length_append
  have : (handler.extend data).fragmentBuffer = handler.fragmentBuffer := rfl
  rw [this]
  omega

/-! ## Whole streams -/

@[simp]
theorem extend_nil (handler : Handler Bytes) : handler.extend [] = handler := by
  simp [extend, mapCache]

theorem receive_eq (within : handler.held ≤ limits.maxPacketSize)
    (waits : (reader limits).step handler = .wait)
    (passes : (handler.receive listOps limits chunks).2 ≠ .error .packetSizeExceeded) :
    handler.receive listOps limits chunks =
      (reader limits).settle (handler.extend chunks.flatten) := by
  induction chunks generalizing handler with
  | nil =>
    rw [flatten_nil, extend_nil, Machine.settle_of_wait waits]
    rfl
  | cons data chunks ih =>
    have whole := (reader limits).settle_extend (handler.extend data) chunks.flatten
    rw [show (reader limits).extend = extend from rfl,
      show (handler.extend data).extend chunks.flatten =
        handler.extend (data ++ chunks.flatten) from
        (reader limits).extend_append handler data chunks.flatten] at whole
    rw [receive, handleRecv_eq within] at passes ⊢
    rw [flatten_cons, whole]
    split_ifs at passes ⊢ with large
    · exact absurd rfl passes
    · rcases settled : (reader limits).settle (handler.extend data) with
        ⟨calls, refusal | final⟩
      · rfl
      · have finalWithin := held_drain (held_extend large) settled
        have finalWaits := Machine.step_of_settle settled
        rw [settled] at passes
        simp only [Outcome.andThen] at passes ⊢
        rw [ih finalWithin finalWaits passes]

theorem receive_held (within : handler.held ≤ limits.maxPacketSize)
    (recv : (handler.receive listOps limits chunks).2 = .ok after) :
    after.held ≤ limits.maxPacketSize := by
  induction chunks generalizing handler with
  | nil =>
    cases recv
    exact within
  | cons data chunks ih =>
    rw [receive, handleRecv_eq within] at recv
    split_ifs at recv with large
    · cases recv
    · rcases settled : (reader limits).settle (handler.extend data) with
        ⟨calls, refusal | final⟩
      · rw [settled] at recv
        cases recv
      · rw [settled] at recv
        exact ih (held_drain (held_extend large) settled) recv

theorem deliver_close (closes : handler.deliver payload = .close refusal) :
    refusal = .unexpectedResponse := by
  simp [deliver] at closes
  split_ifs at closes
  cases closes
  rfl

theorem step_close (closes : step listOps limits handler = .close refusal) :
    refusal ≠ .badCacheSize ∧ refusal ≠ .badFragmentSize := by
  rw [step] at closes
  cases state : handler.state with
  | body =>
    simp [state, takeBody, takeFragment] at closes
    split_ifs at closes
    · rw [deliver_close closes]
      decide
    · cases closes
      decide
    · cases closes
      decide
    · rw [deliver_close closes]
      decide
  | head =>
    simp [state, takeHead] at closes
    split_ifs at closes <;> cases closes <;> decide

theorem receive_checks (within : handler.held ≤ limits.maxPacketSize)
    (refused : (handler.receive listOps limits chunks).2 = .error refusal) :
    refusal ≠ .badCacheSize ∧ refusal ≠ .badFragmentSize := by
  induction chunks generalizing handler with
  | nil => cases refused
  | cons data chunks ih =>
    rw [receive, handleRecv_eq within] at refused
    split_ifs at refused with large
    · cases refused
      decide
    · rcases settled : (reader limits).settle (handler.extend data) with
        ⟨calls, reason | final⟩
      · rw [settled] at refused
        cases refused
        exact drain_close step_close settled
      · rw [settled] at refused
        exact ih (held_drain (held_extend large) settled) refused

end Handler

def buffered (handler : Handler NetBuffer) : Nat :=
  handler.cacheInBuffer.size + handler.fragmentBuffer.length

def newConnection (head : BucketHead) : Handler NetBuffer :=
  Handler.fresh NetBuffer.empty head

variable {limits : Limits}

theorem held_view (handler : Handler NetBuffer) :
    (handler.view bufferOps).held = buffered handler := by
  rw [buffered, ← NetBuffer.length_bytes]
  rfl

theorem receive_newConnection_view (head : BucketHead) (chunks : List Bytes) :
    (Handler.fresh [] head).receive listOps limits chunks =
      ((newConnection head).receive bufferOps limits chunks).map (Handler.view bufferOps) :=
  Handler.receive_view bufferOps_lawful (newConnection head) chunks

theorem held_fresh (head : BucketHead) :
    (Handler.fresh [] head : Handler Bytes).held ≤ limits.maxPacketSize :=
  Nat.zero_le _

variable {chunks : List Bytes}

theorem map_receive (head : BucketHead)
    (passes : ((newConnection head).receive bufferOps limits chunks).2 ≠
      .error .packetSizeExceeded) :
    ((newConnection head).receive bufferOps limits chunks).map (Handler.view bufferOps) =
      (Handler.reader limits).settle ((Handler.fresh [] head).extend chunks.flatten) := by
  rw [← receive_newConnection_view]
  apply Handler.receive_eq (held_fresh head) rfl
  rw [receive_newConnection_view, Ne, Outcome.map_eq_error_iff]
  exact passes

theorem receive_checks (head : BucketHead) {refusal : Refusal}
    (refused : ((newConnection head).receive bufferOps limits chunks).2 = .error refusal) :
    refusal ≠ .badCacheSize ∧ refusal ≠ .badFragmentSize := by
  apply Handler.receive_checks (held_fresh head)
  rw [receive_newConnection_view]
  exact Outcome.map_eq_error_iff.mpr refused

theorem buffered_receive (head : BucketHead) {handler : Handler NetBuffer}
    (recv : ((newConnection head).receive bufferOps limits chunks).2 = .ok handler) :
    buffered handler ≤ limits.maxPacketSize := by
  rw [← held_view]
  apply Handler.receive_held (held_fresh head)
  rw [receive_newConnection_view]
  exact Outcome.map_eq_ok recv

theorem buffered_drain {handler after : Handler NetBuffer} {data : Bytes} {rounds : Nat}
    {calls : List Call} (within : buffered handler + data.length ≤ limits.maxPacketSize)
    (drained : drain (Handler.step bufferOps limits) rounds { handler with
      cacheInBuffer := handler.cacheInBuffer.append data 0 } = (calls, .ok after)) :
    buffered after ≤ limits.maxPacketSize := by
  have respects : ∀ state : Handler NetBuffer, Handler.step listOps limits
      (state.view bufferOps) = (state.step bufferOps limits).map
        (Handler.view bufferOps) := Handler.step_view bufferOps_lawful
  have viewed := drain_map respects rounds
    { handler with cacheInBuffer := handler.cacheInBuffer.append data 0 }
  rw [drained] at viewed
  rw [← held_view]
  refine Handler.held_drain ?_ viewed
  rw [held_view, buffered, ← NetBuffer.length_bytes, NetBuffer.bytes_append,
    length_append, NetBuffer.length_bytes]
  rw [buffered] at within
  simp only
  omega

/-- Two ways of splitting a stream into accepted calls of `handle_recv` lead to the same calls of
the commands handler, and both close the connection or neither does. The buffers stay inside the
packet limit, and the two checks that should never fail do not. -/
theorem receive_split (head : BucketHead) {first second : List Bytes}
    (same : first.flatten = second.flatten)
    (firstPasses : ((newConnection head).receive bufferOps limits first).2 ≠
      .error .packetSizeExceeded)
    (secondPasses : ((newConnection head).receive bufferOps limits second).2 ≠
      .error .packetSizeExceeded) : ((newConnection head).receive bufferOps limits first).1 =
        ((newConnection head).receive bufferOps limits second).1 ∧
      ((∃ after, ((newConnection head).receive bufferOps limits first).2 = .ok after) ↔
        ∃ after, ((newConnection head).receive bufferOps limits second).2 = .ok after) ∧ ∀ chunks,
        (∀ refusal, ((newConnection head).receive bufferOps limits chunks).2 =
          .error refusal → refusal ≠ .badCacheSize ∧ refusal ≠ .badFragmentSize) ∧
        ∀ handler, ((newConnection head).receive bufferOps limits chunks).2 = .ok handler →
          buffered handler ≤ limits.maxPacketSize ∧ ∀ data rounds calls after,
            buffered handler + data.length ≤ limits.maxPacketSize →
            drain (Handler.step bufferOps limits) rounds { handler with
              cacheInBuffer := handler.cacheInBuffer.append data 0 } =
                (calls, .ok after) →
            buffered after ≤ limits.maxPacketSize := by
  have firstView := map_receive head firstPasses
  have secondView := map_receive head secondPasses
  rw [same, ← secondView] at firstView
  refine ⟨(Prod.ext_iff.mp firstView).1, ?_, fun chunks => ⟨?_, ?_⟩⟩
  · rw [← Outcome.exists_ok_map_iff, firstView, Outcome.exists_ok_map_iff]
  · exact fun refusal refused => receive_checks head refused
  · intro handler received
    exact ⟨buffered_receive head received,
      fun data rounds calls after within drained => buffered_drain within drained⟩

def shortPacket : Bytes :=
  toLittleEndian 8 levinSignature ++ toLittleEndian 8 2 ++ [0] ++
    toLittleEndian 4 7 ++ toLittleEndian 4 0 ++ toLittleEndian 4 packetRequest ++
    toLittleEndian 4 protocolVer1 ++ [5, 6]

def smallLimits : Limits :=
  ⟨1000, fun _ => 100, by decide⟩

theorem shortPacket_split :
    ((newConnection (BucketHead.ofBytes [])).receive bufferOps smallLimits [shortPacket]).1 =
      ((newConnection (BucketHead.ofBytes [])).receive bufferOps smallLimits
        [shortPacket.take 10, shortPacket.drop 10]).1 := by
  have once : ((newConnection (BucketHead.ofBytes [])).receive bufferOps smallLimits
      [shortPacket]).2 ≠ .error .packetSizeExceeded := by
    rintro ⟨⟩
  have twice : ((newConnection (BucketHead.ofBytes [])).receive bufferOps smallLimits
      [shortPacket.take 10, shortPacket.drop 10]).2 ≠ .error .packetSizeExceeded := by
    rintro ⟨⟩
  exact (receive_split _ (by decide) once twice).1

end Levin

end LodeChain

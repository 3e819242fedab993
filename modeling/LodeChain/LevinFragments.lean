import LodeChain.LevinHandler

/-!
# Fragmented notifications

`make_fragmented_notify` writes packets of one fixed size, like noise.
-/

namespace LodeChain

open IncrementalReader List

namespace Levin

def makeHeader (command msgSize flags : Nat) : Bytes :=
  toLittleEndian 8 levinSignature ++ (toLittleEndian 8 msgSize ++
    (toLittleEndian 1 0 ++ (toLittleEndian 4 command ++ (toLittleEndian 4 0 ++
      (toLittleEndian 4 flags ++ toLittleEndian 4 protocolVer1)))))

def finalizeNotify (command : Nat) (payload : Bytes) : Bytes :=
  makeHeader command payload.length packetRequest ++ payload

def writeFragments (payloadSpace : Nat) : Nat → Bytes → Nat → Bytes × Nat
  | 0, _, copySize => ([], copySize)
  | rounds + 1, payload, copySize =>
    if payload = [] then ([], copySize)
    else
      let copied := payload.take payloadSpace
      let rest := payload.drop payloadSpace
      let flags := if rest = [] then packetEnd else 0
      let later := writeFragments payloadSpace rounds rest copied.length
      (makeHeader 0 payloadSpace flags ++ (copied ++ later.1), later.2)

def makeFragmentedNotify (noiseSize command : Nat) (payload : Bytes) : Option Bytes :=
  if noiseSize < headSize * 2 then none
  else if headSize + payload.length ≤ noiseSize then
    some (finalizeNotify command (payload ++ replicate (noiseSize - (headSize + payload.length)) 0))
  else
    let payloadBytes := finalizeNotify command payload
    let payloadSpace := noiseSize - headSize
    let first := payloadBytes.take payloadSpace
    let later := writeFragments payloadSpace payloadBytes.length
      (payloadBytes.drop payloadSpace) first.length
    some (makeHeader 0 payloadSpace packetBegin ++ (first ++ (later.1 ++
      replicate (noiseSize - later.2 - headSize) 0)))

@[simp]
theorem length_makeHeader (command msgSize flags : Nat) :
    (makeHeader command msgSize flags).length = headSize := by
  simp [makeHeader, headSize]

def headOf (command msgSize flags : Nat) : BucketHead :=
  ⟨levinSignature, msgSize, 0, command, 0, flags, protocolVer1⟩

variable {command noiseSize : Nat} {payload : Bytes}

variable {msgSize flags rounds : Nat} {header zeros rest output : Bytes}

theorem ofBytes_makeHeader (smallCommand : command < 2 ^ 32)
    (smallSize : msgSize < 2 ^ 64) (smallFlags : flags < 2 ^ 32) (more : Bytes) :
    BucketHead.ofBytes (makeHeader command msgSize flags ++ more) =
      headOf command msgSize flags := by
  rw [BucketHead.ofBytes_append more (by simp)]
  have field : ∀ {width value : Nat} (rest : Bytes), value < 256 ^ width →
      ofLittleEndian ((toLittleEndian width value ++ rest).take width) = value := by
    intro width value rest small
    rw [take_left' (length_toLittleEndian width value), ofLittleEndian_toLittleEndian_of_lt small]
  have skip : ∀ (start width value : Nat) (rest : Bytes),
      (toLittleEndian width value ++ rest).drop (width + start) = rest.drop start := by
    intro start width value rest
    rw [← drop_drop, drop_left' (length_toLittleEndian width value)]
  have last : ofLittleEndian ((toLittleEndian 4 protocolVer1).take 4) = protocolVer1 := rfl
  simp only [BucketHead.ofBytes, makeHeader, headOf, BucketHead.mk.injEq]
  refine ⟨field _ (by decide), ?_, ?_, ?_, ?_, ?_, ?_⟩
  · rw [skip 0, drop_zero, field _ smallSize]
  · rw [skip 8, skip 0, drop_zero, field _ (by decide)]
  · rw [skip 9, skip 1, skip 0, drop_zero, field _ smallCommand]
  · rw [skip 13, skip 5, skip 4, skip 0, drop_zero, field _ (by decide)]
  · rw [skip 17, skip 9, skip 8, skip 4, skip 0, drop_zero, field _ smallFlags]
  · rw [skip 21, skip 13, skip 12, skip 8, skip 4, skip 0, drop_zero, last]

theorem has_headOf (command msgSize flags flag : Nat) :
    (headOf command msgSize flags).has flag = (flags &&& flag != 0) :=
  rfl

/-! ## Packets as they are received -/

namespace Handler

variable {limits : Limits} {fragments more : Bytes} {current head : BucketHead} {ver : Nat}
  {handler : Handler Bytes} {body : Bytes} {space : Nat}

theorem step_header
    (isHead : handler.state = .head) (cache : handler.cacheInBuffer = header ++ more)
    (size : header.length = headSize) (reads : BucketHead.ofBytes (header ++ more) = head)
    (signed : head.signature = levinSignature) (allowed : head.cb ≤ limits.largest head.command) :
    step listOps limits handler = .next { handler with
      cacheInBuffer := more
      state := .body
      currentHead := head
      oponentProtocolVer := head.protocolVersion } [] := by
  have bytes : listOps.bytes handler.cacheInBuffer = header ++ more := cache
  have long : ¬(header ++ more).length < headSize := by simp [size]
  have dropped : listOps.erase handler.cacheInBuffer headSize = more := by
    rw [cache]
    exact drop_left' size
  rw [step]
  simp only [isHead, takeHead]
  rw [bytes, if_neg long, reads, dropped, if_neg (not_not.mpr signed),
    if_neg (not_lt.mpr allowed)]

theorem step_body (isBody : handler.state = .body) (cache : handler.cacheInBuffer = body ++ more)
    (size : body.length = handler.currentHead.cb) :
    step listOps limits handler = if handler.currentHead.has (packetRequest ||| packetResponse) then
        { handler with cacheInBuffer := more, state := .head }.deliver body
      else
        { handler with cacheInBuffer := more, state := .head }.takeFragment limits body := by
  have bytes : listOps.bytes handler.cacheInBuffer = body ++ more := cache
  have long : ¬(body ++ more).length < handler.currentHead.cb := by simp [size]
  have taken : (body ++ more).take handler.currentHead.cb = body := take_left' size
  have dropped : listOps.carve handler.cacheInBuffer handler.currentHead.cb = more := by
    rw [cache]
    exact drop_left' size
  rw [step]
  simp [isBody, takeBody]
  rw [bytes, if_neg long, taken, dropped]

def took (handler : Handler Bytes) (head : BucketHead) (more : Bytes) : Handler Bytes :=
  ⟨more, handler.fragmentBuffer, .head, head, head.protocolVersion⟩

theorem settle_packet {after : Handler Bytes} {calls : List Call}
    (isHead : handler.state = .head) (cache : handler.cacheInBuffer = header ++ (body ++ more))
    (size : header.length = headSize) (reads : BucketHead.ofBytes (header ++ (body ++ more)) = head)
    (signed : head.signature = levinSignature) (allowed : head.cb ≤ limits.largest head.command)
    (bodySize : body.length = head.cb)
    (taken : (if head.has (packetRequest ||| packetResponse) then
        (handler.took head more).deliver body
      else (handler.took head more).takeFragment limits body) = .next after calls) :
    (reader limits).settle handler =
      (calls ++ ((reader limits).settle after).1, ((reader limits).settle after).2) := by
  have headStep := step_header isHead cache size reads signed allowed
  have bodyStep : step listOps limits { handler with
      cacheInBuffer := body ++ more
      state := .body
      currentHead := head
      oponentProtocolVer := head.protocolVersion } = .next after calls :=
    Eq.trans (step_body rfl rfl bodySize) taken
  rw [Machine.settle_of_next headStep]
  exact (reader limits).settle_of_next bodyStep

structure Between (handler : Handler Bytes) : Prop where
  isHead : handler.state = .head
  empty : handler.cacheInBuffer = []

theorem Between.waits (between : handler.Between) : (reader limits).step handler = .wait := by
  have bytes : listOps.bytes handler.cacheInBuffer = [] := between.empty
  change step listOps limits handler = .wait
  rw [step]
  simp only [between.isHead, takeHead]
  rw [bytes]
  rfl

theorem deliver_notify
    (req : handler.currentHead = headOf command msgSize packetRequest) (payload : Bytes) :
    handler.deliver payload = .next handler [.notify command payload] := by
  have noResponse : handler.currentHead.has packetResponse = false := by
    rw [req, has_headOf]
    decide
  simp [deliver]
  rw [if_neg (by simp [noResponse]), req]
  rfl

theorem settle_notify (isHead : handler.state = .head)
    (cache : handler.cacheInBuffer = makeHeader command body.length packetRequest ++ body)
    (smallCommand : command < 2 ^ 32) (allowed : body.length ≤ limits.largest command) :
    (reader limits).settle handler = ([.notify command body],
        .ok (handler.took (headOf command body.length packetRequest) [])) := by
  have smallSize : body.length < 2 ^ 64 :=
    (allowed.trans (min_le_left _ _)).trans_lt limits.bounded
  have ordinary : (headOf command body.length packetRequest).has
      (packetRequest ||| packetResponse) = true := by
    rw [has_headOf]
    decide
  have packet := settle_packet isHead (by rw [cache, append_nil])
    (length_makeHeader command _ packetRequest)
    (ofBytes_makeHeader smallCommand smallSize (by decide) _) rfl allowed rfl
    ((if_pos ordinary).trans (deliver_notify rfl body))
  rw [packet]
  rfl

theorem settle_fragment (isHead : handler.state = .head)
    (cache : handler.cacheInBuffer = makeHeader 0 space flags ++ (body ++ more))
    (kind : flags = packetBegin ∨ flags = 0) (size : body.length = space)
    (allowed : space ≤ limits.largest 0) : (reader limits).settle handler =
      (reader limits).settle { handler.took (headOf 0 space flags) more with
        fragmentBuffer :=
          (if flags = packetBegin then [] else handler.fragmentBuffer) ++ body } := by
  have smallSize : space < 2 ^ 64 := (allowed.trans (min_le_left _ _)).trans_lt limits.bounded
  have smallFlags : flags < 2 ^ 32 := by rcases kind with rfl | rfl <;> decide
  have taken : (if (headOf 0 space flags).has (packetRequest ||| packetResponse) then
        (handler.took (headOf 0 space flags) more).deliver body
      else (handler.took (headOf 0 space flags) more).takeFragment limits body) =
      .next { handler.took (headOf 0 space flags) more with
        fragmentBuffer :=
          (if flags = packetBegin then [] else handler.fragmentBuffer) ++ body } [] := by
    have fragment : (headOf 0 space flags).has (packetRequest ||| packetResponse) =
        false := by
      rw [has_headOf]
      rcases kind with rfl | rfl <;> decide
    have unfinished : (headOf 0 space flags).has packetEnd = false := by
      rw [has_headOf]
      rcases kind with rfl | rfl <;> decide
    have begins : (headOf 0 space flags).has packetBegin = decide (flags = packetBegin) := by
      rw [has_headOf]
      rcases kind with rfl | rfl <;> decide
    rw [if_neg (by simp [fragment])]
    simp [takeFragment, gather, took]
    simp [unfinished, begins]
  rw [settle_packet isHead cache (length_makeHeader 0 space flags)
    (ofBytes_makeHeader (by decide) smallSize smallFlags _) rfl allowed size taken]
  rfl

theorem takeFragment_last (whole : handler.fragmentBuffer ++ body =
      makeHeader command payload.length packetRequest ++ (payload ++ zeros))
    (smallCommand : command < 2 ^ 32) (smallInner : payload.length < 2 ^ 64)
    (innerAllowed : payload.length ≤ limits.largest command) :
    (handler.took (headOf 0 space packetEnd) []).takeFragment limits body =
      .next { handler.took (headOf 0 space packetEnd) [] with
        fragmentBuffer := []
        currentHead := headOf command payload.length packetRequest }
        [.notify command (payload ++ zeros)] := by
  have begins : (headOf 0 space packetEnd).has packetBegin = false := by
    rw [has_headOf]
    decide
  have ends : (headOf 0 space packetEnd).has packetEnd = true := by
    rw [has_headOf]
    decide
  have gathered : (handler.took (headOf 0 space packetEnd) []).gather body =
      makeHeader command payload.length packetRequest ++ (payload ++ zeros) := by
    rw [← whole, gather, if_neg]
    · rfl
    · change ¬(headOf 0 space packetEnd).has packetBegin = true
      simp [begins]
  have inner := ofBytes_makeHeader smallCommand smallInner
    (show packetRequest < 2 ^ 32 by decide) (payload ++ zeros)
  have isCurrent : (handler.took (headOf 0 space packetEnd) []).currentHead =
      headOf 0 space packetEnd := rfl
  have fits : ¬limits.largest (headOf command payload.length packetRequest).command <
      (headOf command payload.length packetRequest).cb := not_lt.mpr innerAllowed
  rw [takeFragment]
  simp only
  rw [gathered, inner, isCurrent, if_neg (by simp [begins]),
    if_neg (by simp [ends]), if_neg fits]
  exact deliver_notify rfl _

theorem settle_lastFragment (isHead : handler.state = .head)
    (cache : handler.cacheInBuffer = makeHeader 0 space packetEnd ++ body)
    (size : body.length = space) (allowed : space ≤ limits.largest 0)
    (whole : handler.fragmentBuffer ++ body =
      makeHeader command payload.length packetRequest ++ (payload ++ zeros))
    (smallCommand : command < 2 ^ 32) (innerAllowed : payload.length ≤ limits.largest command) :
    ∃ after, (reader limits).settle handler = ([.notify command (payload ++ zeros)], .ok after) ∧
      after.Between ∧ after.fragmentBuffer = [] := by
  have smallSize : space < 2 ^ 64 := (allowed.trans (min_le_left _ _)).trans_lt limits.bounded
  have smallInner : payload.length < 2 ^ 64 :=
    (innerAllowed.trans (min_le_left _ _)).trans_lt limits.bounded
  have fragment : (headOf 0 space packetEnd).has (packetRequest ||| packetResponse) =
      false := by
    rw [has_headOf]
    decide
  have taken : (if (headOf 0 space packetEnd).has (packetRequest ||| packetResponse) then
        (handler.took (headOf 0 space packetEnd) []).deliver body
      else (handler.took (headOf 0 space packetEnd) []).takeFragment limits body) =
      .next { handler.took (headOf 0 space packetEnd) [] with
        fragmentBuffer := []
        currentHead := headOf command payload.length packetRequest }
        [.notify command (payload ++ zeros)] :=
    (if_neg (by simp [fragment])).trans
      (takeFragment_last whole smallCommand smallInner innerAllowed)
  refine ⟨{ handler.took (headOf 0 space packetEnd) [] with
    fragmentBuffer := []
    currentHead := headOf command payload.length packetRequest }, ?_, ⟨rfl, rfl⟩, rfl⟩
  rw [settle_packet isHead (by rw [cache, append_nil]) (length_makeHeader 0 space packetEnd)
    (ofBytes_makeHeader (by decide) smallSize (by decide) _) rfl allowed size taken]
  rfl

theorem settle_writeFragments {copySize : Nat} (isHead : handler.state = .head)
    (cache : handler.cacheInBuffer = (writeFragments space rounds rest copySize).1 ++
      replicate (space - (writeFragments space rounds rest copySize).2) 0)
    (pos : 0 < space) (enough : rest.length ≤ rounds) (ne : rest ≠ [])
    (allowed : space ≤ limits.largest 0)
    (whole : handler.fragmentBuffer ++ rest = finalizeNotify command payload)
    (smallCommand : command < 2 ^ 32) (innerAllowed : payload.length ≤ limits.largest command) :
    ∃ zeros after, (reader limits).settle handler =
        ([.notify command (payload ++ replicate zeros 0)], .ok after) ∧
      after.Between ∧ after.fragmentBuffer = [] := by
  induction rounds generalizing handler rest copySize with
  | zero => exact absurd (eq_nil_of_length_eq_zero (Nat.le_zero.mp enough)) ne
  | succ rounds ih =>
    rw [writeFragments, if_neg ne] at cache
    simp only at cache
    by_cases last : rest.drop space = []
    · have short : rest.length ≤ space := drop_eq_nil_iff.mp last
      have all : rest.take space = rest := take_of_length_le short
      have done : writeFragments space rounds [] rest.length = ([], rest.length) := by
        cases rounds <;> rfl
      rw [last, all, done, append_nil] at cache
      have complete : handler.fragmentBuffer ++ (rest ++ replicate (space - rest.length) 0) =
          makeHeader command payload.length packetRequest ++
            (payload ++ replicate (space - rest.length) 0) := by
        rw [← append_assoc, whole, finalizeNotify, append_assoc]
      have size : (rest ++ replicate (space - rest.length) (0 : UInt8)).length =
          space := by
        rw [length_append, length_replicate]
        omega
      exact ⟨_, settle_lastFragment isHead cache size allowed complete smallCommand innerAllowed⟩
    · have long : space < rest.length := by
        rw [drop_eq_nil_iff] at last
        omega
      have size : (rest.take space).length = space := by
        rw [length_take]
        omega
      rw [if_neg last, append_assoc, append_assoc] at cache
      rw [settle_fragment isHead cache (Or.inr rfl) size allowed]
      apply ih rfl rfl _ last
      · rw [append_assoc, take_append_drop]
        exact whole
      · rw [length_drop]
        omega

end Handler

theorem length_writeFragments {space : Nat} (copySize : Nat)
    (pos : 0 < space) (enough : rest.length ≤ rounds) (ne : rest ≠ []) :
    ∃ count, (writeFragments space rounds rest copySize).1.length +
      (space - (writeFragments space rounds rest copySize).2) = count * (space + headSize) := by
  induction rounds generalizing rest copySize with
  | zero => exact absurd (eq_nil_of_length_eq_zero (Nat.le_zero.mp enough)) ne
  | succ rounds ih =>
    rw [writeFragments, if_neg ne]
    simp only
    rw [length_append, length_append, length_makeHeader, length_take]
    by_cases last : rest.drop space = []
    · have short : rest.length ≤ space := drop_eq_nil_iff.mp last
      have done : ∀ size, writeFragments space rounds [] size = ([], size) := by
        intro size
        cases rounds <;> rfl
      rw [last, done, length_nil]
      exact ⟨1, by omega⟩
    · have long : space < rest.length := by
        rw [drop_eq_nil_iff] at last
        omega
      have shorter : (rest.drop space).length ≤ rounds := by
        rw [length_drop]
        omega
      obtain ⟨count, length⟩ := ih (min space rest.length) shorter last
      refine ⟨count + 1, ?_⟩
      rw [Nat.add_mul]
      omega

def FitsLimits (limits : Limits) (noiseSize command : Nat) (payload : Bytes) : Prop :=
  if headSize + payload.length ≤ noiseSize then noiseSize - headSize ≤ limits.largest command
  else noiseSize - headSize ≤ limits.largest 0 ∧ payload.length ≤ limits.largest command

/-- A header is next, nothing is cached, and no fragments have been gathered. -/
structure BetweenMessages (handler : Handler NetBuffer) : Prop where
  isHead : handler.state = .head
  cacheEmpty : handler.cacheInBuffer.size = 0
  fragmentsEmpty : handler.fragmentBuffer = []

variable {limits : Limits}

theorem drop_finalizeNotify (command : Nat) (long : ¬headSize + payload.length ≤ noiseSize) :
    noiseSize - headSize ≤ (finalizeNotify command payload).length ∧
      (finalizeNotify command payload).drop (noiseSize - headSize) ≠ [] := by
  have length : (finalizeNotify command payload).length = headSize + payload.length := by
    rw [finalizeNotify, length_append, length_makeHeader]
  rw [Ne, drop_eq_nil_iff]
  omega

theorem length_makeFragmentedNotify
    (made : makeFragmentedNotify noiseSize command payload = some output) :
    ∃ count, 0 < count ∧ output.length = count * noiseSize := by
  rw [makeFragmentedNotify] at made
  split_ifs at made with small fits
  · cases made
    refine ⟨1, one_pos, ?_⟩
    rw [finalizeNotify, length_append, length_makeHeader, length_append, length_replicate]
    omega
  · cases made
    obtain ⟨longer, more⟩ := drop_finalizeNotify command fits
    have pos : 0 < noiseSize - headSize := by
      rw [headSize] at *
      omega
    have rounds : ((finalizeNotify command payload).drop (noiseSize - headSize)).length ≤
        (finalizeNotify command payload).length := by
      simp
    obtain ⟨count, length⟩ := length_writeFragments ((finalizeNotify command payload).take
      _).length pos rounds more
    refine ⟨count + 1, Nat.succ_pos _, ?_⟩
    have noise : noiseSize - headSize + headSize = noiseSize := by omega
    rw [noise] at length
    rw [length_append, length_append, length_append, length_makeHeader,
      length_replicate, length_take_of_le longer, Nat.add_mul]
    rw [length_take_of_le longer] at length
    omega

theorem settle_makeFragmentedNotify (handler : Handler Bytes)
    (smallCommand : command < 2 ^ 32) (fitsLimits : FitsLimits limits noiseSize command payload)
    (made : makeFragmentedNotify noiseSize command payload = some output)
    (isHead : handler.state = .head) (cache : handler.cacheInBuffer = output)
    (noFragments : handler.fragmentBuffer = []) :
    ∃ zeros after, (Handler.reader limits).settle handler =
        ([.notify command (payload ++ replicate zeros 0)], .ok after) ∧
      after.Between ∧ after.fragmentBuffer = [] := by
  rw [makeFragmentedNotify] at made
  rw [FitsLimits] at fitsLimits
  split_ifs at made fitsLimits with small fits
  · cases made
    have size : (payload ++ replicate (noiseSize - (headSize + payload.length))
        (0 : UInt8)).length = noiseSize - headSize := by
      rw [length_append, length_replicate]
      omega
    exact ⟨_, _, Handler.settle_notify isHead cache smallCommand (size ▸ fitsLimits),
      ⟨rfl, rfl⟩, noFragments⟩
  · cases made
    obtain ⟨longer, more⟩ := drop_finalizeNotify command fits
    have pos : 0 < noiseSize - headSize := by
      rw [headSize] at *
      omega
    rw [Nat.sub_right_comm] at cache
    rw [Handler.settle_fragment isHead cache (Or.inl rfl) (length_take_of_le longer) fitsLimits.1]
    exact Handler.settle_writeFragments rfl rfl pos (by simp) more fitsLimits.1
      (take_append_drop _ _) smallCommand fitsLimits.2

theorem betweenMessages_iff (handler : Handler NetBuffer) :
    BetweenMessages handler ↔ (handler.view bufferOps).Between ∧
      (handler.view bufferOps).fragmentBuffer = [] := by
  constructor
  · rintro ⟨isHead, cacheEmpty, fragmentsEmpty⟩
    rw [← NetBuffer.length_bytes] at cacheEmpty
    exact ⟨⟨isHead, eq_nil_of_length_eq_zero cacheEmpty⟩, fragmentsEmpty⟩
  · rintro ⟨⟨isHead, empty⟩, fragmentsEmpty⟩
    refine ⟨isHead, ?_, fragmentsEmpty⟩
    rw [← NetBuffer.length_bytes]
    exact length_eq_zero_iff.mpr empty

/-- The output is a positive multiple of the noise size. Received between two messages, in any
accepted chunks, it gives one notification with the payload followed by zeros. -/
theorem makeFragmentedNotify_spec {noiseSize : Nat} (command : UInt32) {payload : Bytes}
    (enough : headSize * 2 ≤ noiseSize)
    (fitsLimits : FitsLimits limits noiseSize command.toNat payload) :
    ∃ output, makeFragmentedNotify noiseSize command.toNat payload = some output ∧
      (∃ count, 0 < count ∧ output.length = count * noiseSize) ∧
      ∀ (handler : Handler NetBuffer) (chunks : List Bytes), BetweenMessages handler →
        chunks.flatten = output →
        (handler.receive bufferOps limits chunks).2 ≠ .error .packetSizeExceeded →
        ∃ zeros after, handler.receive bufferOps limits chunks =
            ([.notify command.toNat (payload ++ replicate zeros 0)], .ok after) ∧
          BetweenMessages after := by
  obtain ⟨output, made⟩ : ∃ output,
      makeFragmentedNotify noiseSize command.toNat payload = some output := by
    rw [makeFragmentedNotify, if_neg (not_lt.mpr enough)]
    split_ifs
    · exact ⟨_, rfl⟩
    · exact ⟨_, rfl⟩
  refine ⟨output, made, length_makeFragmentedNotify made, ?_⟩
  intro handler chunks between whole passes
  obtain ⟨betweenView, noFragments⟩ := (betweenMessages_iff handler).mp between
  have viewed : (handler.view bufferOps).receive listOps limits chunks =
      (handler.receive bufferOps limits chunks).map (Handler.view bufferOps) :=
    Handler.receive_view bufferOps_lawful handler chunks
  have within : (handler.view bufferOps).held ≤ limits.maxPacketSize := by
    rw [Handler.held, betweenView.empty, noFragments]
    exact Nat.zero_le _
  have stream := Handler.receive_eq within betweenView.waits (by
    rw [viewed, Ne, Outcome.map_eq_error_iff]
    exact passes)
  have cache : ((handler.view bufferOps).extend chunks.flatten).cacheInBuffer = output := by
    change (handler.view bufferOps).cacheInBuffer ++ chunks.flatten = output
    rw [betweenView.empty, nil_append, whole]
  obtain ⟨zeros, final, settled, finalBetween, finalFragments⟩ :=
    settle_makeFragmentedNotify ((handler.view bufferOps).extend chunks.flatten)
      command.toNat_lt fitsLimits made betweenView.isHead cache noFragments
  rw [settled, viewed] at stream
  rcases received : handler.receive bufferOps limits chunks with ⟨calls, refusal | after⟩
  · rw [received] at stream
    cases (Prod.ext_iff.mp stream).2
  · rw [received] at stream
    obtain ⟨sameCalls, sameState⟩ := Prod.ext_iff.mp stream
    have isFinal : after.view bufferOps = final := Except.ok.inj sameState
    rw [← isFinal] at finalBetween finalFragments
    exact ⟨zeros, after, Prod.ext sameCalls rfl,
      (betweenMessages_iff after).mpr ⟨finalBetween, finalFragments⟩⟩

theorem fortyBytes_spec : ∃ output, makeFragmentedNotify 66 7 (replicate 40 1) = some output ∧
      ∃ zeros after, (newConnection (BucketHead.ofBytes [])).receive bufferOps smallLimits
          [output] = ([.notify 7 (replicate 40 1 ++ replicate zeros 0)], .ok after) ∧
        BetweenMessages after := by
  have fits : FitsLimits smallLimits 66 (7 : UInt32).toNat (replicate 40 1) := by
    rw [FitsLimits]
    decide
  obtain ⟨output, made, -, received⟩ := makeFragmentedNotify_spec 7 (by decide) fits
  have accepted : ((newConnection (BucketHead.ofBytes [])).receive bufferOps smallLimits
      [(makeFragmentedNotify 66 7 (replicate 40 1)).getD []]).2.isOk = true := by
    decide +kernel
  refine ⟨output, made, received _ [output] ⟨rfl, rfl, rfl⟩ (by simp) ?_⟩
  intro refused
  have isOutput : (makeFragmentedNotify 66 7 (replicate 40 1)).getD [] = output :=
    congrArg (Option.getD · []) made
  rw [isOutput, refused] at accepted
  cases accepted

end Levin

end LodeChain

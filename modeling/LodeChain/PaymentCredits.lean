import LodeChain.Difficulty
import LodeChain.OrderedTable
import LodeChain.TxExtra

/-!
# Payments for RPC access

A client's record keeps the nonces of two templates and forgets the others.
-/

namespace LodeChain

open TxExtra List

structure BlobFunctions where
  hashData : Hash → Pod
  getTxTreeHash : Transaction → List Hash → Pod

def headerFront (functions : BlobFunctions) (block : Block) : Bytes :=
  writeVarint block.majorVersion ++ writeVarint block.minorVersion ++
    writeVarint block.timestamp ++ (functions.hashData block.prevId).val

def getBlockHashingBlob (functions : BlobFunctions) (block : Block) : Bytes :=
  headerFront functions block ++ toLittleEndian 4 block.nonce ++
    ((functions.getTxTreeHash block.minerTx block.txHashes).val ++
      writeVarint (block.txHashes.length + 1))

def withNonce (blob : Bytes) (nonce : Nat) : Bytes :=
  blob.take 39 ++ toLittleEndian 4 nonce ++ blob.drop 43

/-- The nonce stands at byte 39 of the hashing blob, which starts with the major version. -/
def OrdinaryHeader (block : Block) : Prop :=
  block.majorVersion < 128 ∧
    (writeVarint block.minorVersion ++ writeVarint block.timestamp).length = 6

instance (block : Block) : Decidable (OrdinaryHeader block) :=
  inferInstanceAs (Decidable (_ ∧ _))

section Blob

variable {functions : BlobFunctions} {block : Block}

theorem length_headerFront (ordinary : OrdinaryHeader block) :
    (headerFront functions block).length = 39 := by
  obtain ⟨major, lengths⟩ := ordinary
  rw [length_append] at lengths
  simp only [headerFront, length_append, writeVarint_of_lt major, length_singleton,
    (functions.hashData _).property]
  omega

theorem withNonce_getBlockHashingBlob (ordinary : OrdinaryHeader block) (nonce : Nat) :
    withNonce (getBlockHashingBlob functions block) nonce =
      getBlockHashingBlob functions { block with nonce := nonce } := by
  have front := @length_headerFront functions block ordinary
  have filled : (headerFront functions block ++ toLittleEndian 4 block.nonce).length = 43 := by
    rw [length_append, front, length_toLittleEndian]
  rw [withNonce, getBlockHashingBlob, drop_left' filled,
    append_assoc (headerFront functions block), take_left' front]
  rfl

theorem head?_getBlockHashingBlob (ordinary : OrdinaryHeader block) :
    (getBlockHashingBlob functions block).head? = some block.majorVersion.toUInt8 := by
  rw [getBlockHashingBlob, headerFront, writeVarint_of_lt ordinary.1]
  rfl

end Blob

/-! ## Records and errors -/

open WrappedArithmetic

def staleThreshold : Nat := 15

def penaltyForStale : Nat := 0

def penaltyForBadHash : Nat := 20

def penaltyForDuplicate : Nat := 20

def leastBlobSize : Nat := 43

structure PaymentTemplate where
  block : Block
  hashingBlob : Bytes
  seedHeight : Nat
  seedHash : Hash
  deriving DecidableEq

def PaymentTemplate.unset : PaymentTemplate :=
  ⟨⟨0, 0, 0, nullHash, 0, .setNull, []⟩, [], 0, nullHash⟩

/-- `client_info`, with the two templates in a record each. -/
structure ClientInfo where
  current : PaymentTemplate
  previous : PaymentTemplate
  cookie : Nat
  top : Hash
  previousTop : Hash
  credits : Nat
  payments : Finset Nat
  previousPayments : Finset Nat
  updateTime : Nat
  blockTemplateUpdateTime : Nat

def ClientInfo.create (now : Nat) : ClientInfo where
  current := .unset
  previous := .unset
  cookie := 0
  top := nullHash
  previousTop := nullHash
  credits := 0
  payments := ∅
  previousPayments := ∅
  updateTime := now
  blockTemplateUpdateTime := 0

/-- The two hashes for proofs of work, and the nonce that marks a client's templates. -/
structure PaymentServer extends BlobFunctions where
  diff : Nat
  creditsPerHashFound : Nat
  rxSlowHash : Hash → Bytes → Hash
  cnSlowHash : Bytes → Nat → Nat → Hash
  clientNonce : PublicKey → Bytes

def sub64clamp (value sub : Nat) : Nat :=
  value - sub

def add64clamp (value add : Nat) : Nat :=
  if 2 ^ 64 - 1 - add < value then 2 ^ 64 - 1 else value + add

/-! ## New templates -/

def addExtraNonceToTxExtra (txExtra extraNonce : Bytes) : Option Bytes :=
  if extraNonce.length ≤ txExtraNonceMaxCount then
    some (txExtra ++ 0x02 :: extraNonce.length.toUInt8 :: extraNonce)
  else none

structure TemplateReply where
  block : Block
  seedHeight : Nat
  seedHash : Hash
  deriving DecidableEq

structure PaymentInfo where
  hashingBlob : Bytes
  seedHeight : Nat
  seedHash : Hash
  diff : Nat
  creditsPerHashFound : Nat
  credits : Nat
  cookie : Nat
  deriving DecidableEq

namespace PaymentServer

variable (server : PaymentServer)

def makeTemplate (client : PublicKey) (reply : TemplateReply) : Option PaymentTemplate := do
  let removed ← withoutField reply.block.minerTx.extra .nonce
  let extra ← addExtraNonceToTxExtra removed (server.clientNonce client)
  let block : Block := { reply.block with minerTx := { reply.block.minerTx with extra := extra } }
  some ⟨block, getBlockHashingBlob server.toBlobFunctions block, reply.seedHeight, reply.seedHash⟩

def updateInfo (client : PublicKey) (info : ClientInfo)
    (reply : Option TemplateReply) (top : Hash) (now : Nat) : Option ClientInfo :=
  if top ≠ info.top ∨ addMod 64 info.blockTemplateUpdateTime staleThreshold ≤ now then
    (reply.bind (server.makeTemplate client)).map fun template => { info with
        current := template
        previous := info.current
        cookie := addMod 32 info.cookie 1
        top := top
        previousTop := info.top
        payments := ∅
        previousPayments := info.payments
        updateTime := now
        blockTemplateUpdateTime := now }
  else some { info with top := top, updateTime := now }

/-- `get_info` on the record of a client: what it tells, and the record
afterwards. -/
def getInfo (client : PublicKey) (info : ClientInfo)
    (reply : Option TemplateReply) (top : Hash) (now : Nat) : Option PaymentInfo × ClientInfo :=
  match server.updateInfo client info reply top now with
  | none => (none, info)
  | some updated =>
    (some
      { hashingBlob := updated.current.hashingBlob
        seedHeight := updated.current.seedHeight
        seedHash := updated.current.seedHash
        diff := server.diff
        creditsPerHashFound := server.creditsPerHashFound
        credits := updated.credits
        cookie := updated.cookie },
      updated)

/-! ## Nonces -/

/-- The first byte of a blob is a `char`, which is negative from 128 on. -/
def cnVariant (blob : Bytes) : Nat :=
  match blob.head? with
  | none => 0
  | some byte => if 7 ≤ byte.toNat ∧ byte.toNat < 128 then byte.toNat - 6 else 0

def templateHash (template : PaymentTemplate) (nonce : Nat) : Hash :=
  let hashingBlob := withNonce template.hashingBlob nonce
  if rxBlockVersion ≤ template.block.majorVersion then
    server.rxSlowHash template.seedHash hashingBlob
  else server.cnSlowHash hashingBlob (cnVariant hashingBlob) (getBlockHeight template.block)

end PaymentServer

inductive PaymentError
  | veryStale
  | duplicate
  | stale
  | notInitialized
  | tooLow
  deriving DecidableEq, Repr

namespace PaymentError

def code : PaymentError → Int
  | veryStale => -18
  | duplicate => -17
  | stale => -18
  | notInitialized => -6
  | tooLow => -16

def message : PaymentError → String
  | veryStale => "Very stale payment"
  | duplicate => "Duplicate payment"
  | stale => "stale payment"
  | notInitialized => "not initialized"
  | tooLow => "Hash does not meet difficulty (could be wrong PoW hash, " ++
      "or mining at lower difficulty than required, or attempt to defraud)"

end PaymentError

structure CreditedNonce where
  credits : Nat
  hash : Hash
  block : Block
  stale : Bool

namespace PaymentServer

variable (server : PaymentServer)

def penalize (info : ClientInfo) (penalty : Nat) : ClientInfo :=
  { info with
    credits := sub64clamp info.credits (mulMod 64 penalty server.creditsPerHashFound) }

def checkNonce (info : ClientInfo) (nonce : Nat) (isCurrent : Bool) (now : Nat) :
    Except PaymentError CreditedNonce × ClientInfo :=
  let template := if isCurrent then info.current else info.previous
  if !isCurrent ∧ addMod 64 info.updateTime staleThreshold < now then
    (.error .stale, server.penalize info penaltyForStale)
  else if template.hashingBlob.length < leastBlobSize then (.error .notInitialized, info)
  else
    let hash := server.templateHash template nonce
    if !checkHash hash server.diff then (.error .tooLow, server.penalize info penaltyForBadHash)
    else
      let credits := add64clamp info.credits server.creditsPerHashFound
      (.ok
        { credits := credits
          hash := hash
          block := { info.current.block with nonce := nonce }
          stale := !isCurrent },
        { info with credits := credits })

def submitNonce (info : ClientInfo) (nonce cookie now : Nat) :
    Except PaymentError CreditedNonce × ClientInfo :=
  if cookie ≠ info.cookie ∧ cookie ≠ subMod 32 info.cookie 1 then
    (.error .veryStale, server.penalize info penaltyForStale)
  else
    let isCurrent := decide (cookie = info.cookie)
    let payments := if isCurrent then info.payments else info.previousPayments
    if nonce ∈ payments then (.error .duplicate, server.penalize info penaltyForDuplicate)
    else
      let info := if isCurrent then { info with payments := insert nonce info.payments }
        else { info with previousPayments := insert nonce info.previousPayments }
      server.checkNonce info nonce isCurrent now

end PaymentServer

/-! ## The hash of a credited nonce -/

open Option OrderedTable

namespace PaymentServer

variable {server : PaymentServer} {client : PublicKey} {info : ClientInfo}

theorem getInfo_cases (server : PaymentServer) (client : PublicKey)
    (info : ClientInfo) (reply : Option TemplateReply) (top : Hash) (now : Nat) :
    let after := (server.getInfo client info reply top now).2
    (after.current = info.current ∧ after.previous = info.previous ∧
      after.cookie = info.cookie ∧ after.payments = info.payments ∧
      after.previousPayments = info.previousPayments) ∨
    ∃ given template, reply = some given ∧ server.makeTemplate client given = some template ∧
      after.current = template ∧ after.previous = info.current ∧
      after.cookie = addMod 32 info.cookie 1 ∧ after.payments = ∅ ∧
      after.previousPayments = info.payments := by
  unfold getInfo updateInfo
  split_ifs with needed
  · cases made : reply.bind (server.makeTemplate client) with
    | none => exact .inl ⟨rfl, rfl, rfl, rfl, rfl⟩
    | some template =>
      obtain ⟨given, asked, makes⟩ := bind_eq_some_iff.mp made
      exact .inr ⟨given, template, asked, makes, rfl, rfl, rfl, rfl, rfl⟩
  · exact .inl ⟨rfl, rfl, rfl, rfl, rfl⟩

theorem submitNonce_cases (server : PaymentServer) (info : ClientInfo) (nonce cookie now : Nat) :
    (∃ error credits, server.submitNonce info nonce cookie now =
      (.error error, { info with credits := credits })) ∨
    (cookie = info.cookie ∧ nonce ∉ info.payments ∧ server.submitNonce info nonce cookie now =
        server.checkNonce { info with payments := insert nonce info.payments } nonce true now) ∨
    (cookie ≠ info.cookie ∧ cookie = subMod 32 info.cookie 1 ∧ nonce ∉ info.previousPayments ∧
      server.submitNonce info nonce cookie now = server.checkNonce
          { info with previousPayments := insert nonce info.previousPayments }
          nonce false now) := by
  unfold submitNonce
  by_cases isCurrent : cookie = info.cookie
  · rw [if_neg (fun stale => stale.1 isCurrent), decide_eq_true isCurrent]
    dsimp only
    rw [if_pos rfl]
    split
    · exact .inl ⟨_, _, rfl⟩
    · rename_i fresh
      exact .inr (.inl ⟨isCurrent, fresh, rfl⟩)
  · by_cases isPrevious : cookie = subMod 32 info.cookie 1
    · rw [if_neg (fun stale => stale.2 isPrevious), decide_eq_false isCurrent]
      dsimp only
      rw [if_neg Bool.false_ne_true]
      split
      · exact .inl ⟨_, _, rfl⟩
      · rename_i fresh
        exact .inr (.inr ⟨isCurrent, isPrevious, fresh, rfl⟩)
    · rw [if_pos ⟨isCurrent, isPrevious⟩]
      exact .inl ⟨_, _, rfl⟩

theorem checkNonce_frame (server : PaymentServer) (info : ClientInfo)
    (nonce : Nat) (isCurrent : Bool) (now : Nat) :
    ∃ credits, (server.checkNonce info nonce isCurrent now).2 =
      { info with credits := credits } := by
  unfold checkNonce
  dsimp only
  generalize (if isCurrent = true then info.current else info.previous) = template
  split
  · exact ⟨_, rfl⟩
  · split
    · exact ⟨info.credits, rfl⟩
    · split
      · exact ⟨_, rfl⟩
      · exact ⟨_, rfl⟩

variable {nonce now : Nat} {credited : CreditedNonce} {template : PaymentTemplate}

theorem checkNonce_ok {isCurrent : Bool}
    (accepted : (server.checkNonce info nonce isCurrent now).1 = .ok credited) :
    let template := if isCurrent then info.current else info.previous
    leastBlobSize ≤ template.hashingBlob.length ∧
      credited.hash = server.templateHash template nonce ∧
      credited.block = { info.current.block with nonce := nonce } := by
  unfold checkNonce at accepted
  dsimp only at accepted ⊢
  generalize (if isCurrent = true then info.current else info.previous) = template at accepted ⊢
  split at accepted
  · cases accepted
  · split at accepted
    · cases accepted
    · rename_i long
      split at accepted
      · cases accepted
      · cases accepted
        exact ⟨not_lt.mp long, rfl, rfl⟩

theorem submitNonce_frame (server : PaymentServer) (info : ClientInfo) (nonce cookie now : Nat) :
    let after := (server.submitNonce info nonce cookie now).2
    after.current = info.current ∧ after.previous = info.previous ∧
      after.cookie = info.cookie ∧ info.payments ⊆ after.payments ∧
      info.previousPayments ⊆ after.previousPayments := by
  obtain ⟨error, credits, refused⟩ | ⟨_, _, checked⟩ | ⟨_, _, _, checked⟩ :=
    server.submitNonce_cases info nonce cookie now
  · rw [refused]
    exact ⟨rfl, rfl, rfl, subset_rfl, subset_rfl⟩
  · obtain ⟨credits, after⟩ := server.checkNonce_frame
      { info with payments := insert nonce _ } nonce true now
    rw [checked, after]
    exact ⟨rfl, rfl, rfl, Finset.subset_insert _ _, subset_rfl⟩
  · obtain ⟨credits, after⟩ := server.checkNonce_frame
      { info with previousPayments := insert nonce _ }
      nonce false now
    rw [checked, after]
    exact ⟨rfl, rfl, rfl, subset_rfl, Finset.subset_insert _ _⟩

theorem submitNonce_ok {cookie : Nat}
    (accepted : (server.submitNonce info nonce cookie now).1 = .ok credited) :
    let after := (server.submitNonce info nonce cookie now).2
    credited.block = { info.current.block with nonce := nonce } ∧
    ((cookie = info.cookie ∧ leastBlobSize ≤ info.current.hashingBlob.length ∧
        credited.hash = server.templateHash info.current nonce ∧
        nonce ∉ info.payments ∧ nonce ∈ after.payments) ∨
      (cookie ≠ info.cookie ∧ cookie = subMod 32 info.cookie 1 ∧
        leastBlobSize ≤ info.previous.hashingBlob.length ∧
        credited.hash = server.templateHash info.previous nonce ∧
        nonce ∉ info.previousPayments ∧ nonce ∈ after.previousPayments)) := by
  obtain ⟨error, credits, refused⟩ | ⟨isCurrent, fresh, checked⟩ |
      ⟨notCurrent, isPrevious, fresh, checked⟩ :=
    server.submitNonce_cases info nonce cookie now
  · rw [refused] at accepted
    cases accepted
  · rw [checked] at accepted ⊢
    obtain ⟨long, hashed, block⟩ := checkNonce_ok accepted
    obtain ⟨credits, after⟩ := server.checkNonce_frame
      { info with payments := insert nonce _ } nonce true now
    rw [after]
    exact ⟨block, .inl ⟨isCurrent, long, hashed, fresh, Finset.mem_insert_self _ _⟩⟩
  · rw [checked] at accepted ⊢
    obtain ⟨long, hashed, block⟩ := checkNonce_ok accepted
    obtain ⟨credits, after⟩ := server.checkNonce_frame
      { info with previousPayments := insert nonce _ }
      nonce false now
    rw [after]
    exact ⟨block, .inr ⟨notCurrent, isPrevious, long, hashed, fresh, Finset.mem_insert_self _ _⟩⟩

/-! ## Hashes and blocks -/

def powHash (server : PaymentServer) (block : Block) (seedHash : Hash) : Hash :=
  let blob := getBlockHashingBlob server.toBlobFunctions block
  if rxBlockVersion ≤ block.majorVersion then server.rxSlowHash seedHash blob
  else
    server.cnSlowHash blob (if 7 ≤ block.majorVersion then block.majorVersion - 6 else 0)
      (getBlockHeight block)

/-- A template is unset or has the hashing blob of its block, as `get_info` makes it. -/
def Hashed (server : PaymentServer) (template : PaymentTemplate) : Prop :=
  template.hashingBlob = [] ∨
    template.hashingBlob = getBlockHashingBlob server.toBlobFunctions template.block

theorem makeTemplate_hashed {given : TemplateReply}
    (made : server.makeTemplate client given = some template) : server.Hashed template := by
  obtain ⟨removed, _, made⟩ := bind_eq_some_iff.mp made
  obtain ⟨extra, _, made⟩ := bind_eq_some_iff.mp made
  rw [← some.inj made]
  exact .inr rfl

theorem cnVariant_getBlockHashingBlob {functions : BlobFunctions} {block : Block}
    (ordinary : OrdinaryHeader block) :
    cnVariant (getBlockHashingBlob functions block) =
      if 7 ≤ block.majorVersion then block.majorVersion - 6 else 0 := by
  have small : block.majorVersion.toUInt8.toNat = block.majorVersion := by
    have major := ordinary.1
    simp
    omega
  rw [cnVariant, head?_getBlockHashingBlob ordinary]
  dsimp only
  rw [small]
  simp only [ordinary.1, and_true]

theorem templateHash_eq_powHash (header : OrdinaryHeader template.block)
    (blob : template.hashingBlob = getBlockHashingBlob server.toBlobFunctions template.block)
    (nonce : Nat) : server.templateHash template nonce =
      server.powHash { template.block with nonce := nonce } template.seedHash := by
  have noncedHeader : OrdinaryHeader { template.block with nonce := nonce } := header
  unfold templateHash powHash
  dsimp only
  rw [blob, withNonce_getBlockHashingBlob header, cnVariant_getBlockHashingBlob noncedHeader]
  rfl

/-! ## Runs -/

end PaymentServer

abbrev PaymentTable := OrderedTable PublicKey ClientInfo

def PaymentTable.record (table : PaymentTable) (client : PublicKey) (now : Nat) : ClientInfo :=
  (find? table client).getD (.create now)

inductive ClientCall
  | getInfo (reply : Option TemplateReply) (top : Hash) (now : Nat)
  | submitNonce (nonce cookie now : Nat)

def ClientCall.now : ClientCall → Nat
  | .getInfo _ _ now => now
  | .submitNonce _ _ now => now

namespace PaymentServer

variable {server : PaymentServer} {client : PublicKey} {info : ClientInfo} {table : PaymentTable}

def respond (server : PaymentServer) (client : PublicKey) (info : ClientInfo) :
    ClientCall → ClientInfo
  | .getInfo reply top now => (server.getInfo client info reply top now).2
  | .submitNonce nonce cookie now => (server.submitNonce info nonce cookie now).2

def perform (server : PaymentServer) (table : PaymentTable) (client : PublicKey)
    (call : ClientCall) : PaymentTable :=
  put table client (server.respond client (table.record client call.now) call)

inductive Reached (server : PaymentServer) : PaymentTable → Prop
  | start : Reached server empty
  | call {table : PaymentTable} (reached : Reached server table)
      (client : PublicKey) (call : ClientCall) :
      Reached server (server.perform table client call)

def TemplatesHashed (server : PaymentServer) (table : PaymentTable) : Prop :=
  ∀ client info, find? table client = some info → server.Hashed info.current

theorem TemplatesHashed.record (kept : server.TemplatesHashed table)
    (client : PublicKey) (now : Nat) : server.Hashed (table.record client now).current := by
  unfold PaymentTable.record
  cases found : find? table client with
  | none => exact .inl rfl
  | some info => exact kept client info found

theorem TemplatesHashed.put (kept : server.TemplatesHashed table)
    (hashed : server.Hashed info.current) : server.TemplatesHashed (put table client info) := by
  intro other found lookup
  rw [find?_put] at lookup
  split_ifs at lookup with same
  · rw [← some.inj lookup]
    exact hashed
  · exact kept other found lookup

theorem TemplatesHashed.perform (kept : server.TemplatesHashed table) (call : ClientCall) :
    server.TemplatesHashed (server.perform table client call) := by
  apply kept.put
  cases call with
  | getInfo reply top now =>
    dsimp only [respond, ClientCall.now]
    obtain ⟨same, _⟩ | ⟨given, template, asked, made, same, _⟩ :=
      server.getInfo_cases client _ reply top now
    · rw [same]
      exact kept.record client now
    · rw [same]
      exact makeTemplate_hashed made
  | submitNonce nonce cookie now =>
    dsimp only [respond, ClientCall.now]
    rw [(server.submitNonce_frame _ nonce cookie now).1]
    exact kept.record client now

theorem Reached.templatesHashed (reached : server.Reached table) :
    server.TemplatesHashed table := by
  induction reached with
  | start =>
    intro client info found
    cases found
  | call reached client call kept => exact kept.perform call

/-- A nonce credited for the current template, or for a previous one that is the same, has the hash
of the block handed back with it. -/
theorem submitNonce_hash_of_reached (reached : server.Reached table) {nonce cookie now : Nat}
    {credited : CreditedNonce} (ordinary : OrdinaryHeader (table.record client now).current.block)
    (timely : cookie = subMod 32 (table.record client now).cookie 1 →
      (table.record client now).previous = (table.record client now).current)
    (accepted : (server.submitNonce (table.record client now) nonce cookie now).1 = .ok credited) :
    credited.block.nonce = nonce ∧ credited.hash = server.powHash credited.block
        (table.record client now).current.seedHash := by
  obtain ⟨block, chosen⟩ := submitNonce_ok accepted
  have current : leastBlobSize ≤ (table.record client now).current.hashingBlob.length ∧
      credited.hash = server.templateHash (table.record client now).current nonce := by
    rcases chosen with ⟨_, long, hashed, _⟩ | ⟨_, isPrevious, long, hashed, _⟩
    · exact ⟨long, hashed⟩
    · rw [timely isPrevious] at long hashed
      exact ⟨long, hashed⟩
  obtain unset | blob := reached.templatesHashed.record client now
  · rw [unset] at current
    exact absurd current.1 (by decide)
  · rw [current.2, block, templateHash_eq_powHash ordinary blob]
    exact ⟨rfl, rfl⟩

def timestampServer : PaymentServer where
  hashData _ := ⟨List.replicate 32 3, List.length_replicate⟩
  getTxTreeHash _ _ := ⟨List.replicate 32 4, List.length_replicate⟩
  diff := 1
  creditsPerHashFound := 1
  rxSlowHash _ blob := (blob.getD 2 2).toNat
  cnSlowHash blob _ _ := (blob.getD 2 2).toNat
  clientNonce _ := [5, 5, 5, 5]

def askTemplate (top now : Nat) : ClientCall :=
  .getInfo (some ⟨⟨1, 1, 2 ^ 28 + top, top, 0, .setNull, []⟩, 0, 0⟩) top now

def askedTemplates (tops : List (Nat × Nat)) : PaymentTable :=
  tops.foldl (fun table top => timestampServer.perform table 5 (askTemplate top.1 top.2)) empty

theorem exists_ok_of_any {ε α : Type} {result : Except ε α} {test : α → Bool}
    (passes : result.toOption.any test = true) :
    ∃ value, result = .ok value ∧ test value = true := by
  cases result with
  | error _ => cases passes
  | ok value => exact ⟨value, rfl, passes⟩

theorem firstTemplate_hash : ∃ credited, (timestampServer.submitNonce
        ((askedTemplates [(1, 100)]).record 5 102) 7 1 102).1 = .ok credited ∧
      credited.block.nonce = 7 ∧ credited.hash = timestampServer.powHash credited.block
        ((askedTemplates [(1, 100)]).record 5 102).current.seedHash := by
  have ordinary : OrdinaryHeader ((askedTemplates [(1, 100)]).record 5 102).current.block := by
    decide +kernel
  have timely : 1 ≠ subMod 32 ((askedTemplates [(1, 100)]).record 5 102).cookie 1 := by
    decide +kernel
  have passes : (timestampServer.submitNonce
      ((askedTemplates [(1, 100)]).record 5 102) 7 1 102).1.toOption.any
        (fun _ => true) = true := by
    decide +kernel
  obtain ⟨credited, accepted, _⟩ := exists_ok_of_any passes
  exact ⟨credited, accepted, submitNonce_hash_of_reached (.call .start 5 _) ordinary
    (fun isPrevious => absurd isPrevious timely) accepted⟩

/-- A nonce is credited with the hash of the first and the block of the second template. -/
theorem staleNonce_foreign_hash : ∃ credited,
      (timestampServer.submitNonce ((askedTemplates [(1, 100), (2, 101)]).record 5 102) 7 1 102).1 =
          .ok credited ∧ credited.hash ≠ timestampServer.powHash credited.block
        ((askedTemplates [(1, 100), (2, 101)]).record 5 102).current.seedHash ∧
      credited.hash ≠ timestampServer.powHash credited.block
        ((askedTemplates [(1, 100), (2, 101)]).record 5 102).previous.seedHash := by
  have differs : (timestampServer.submitNonce
      ((askedTemplates [(1, 100), (2, 101)]).record 5 102) 7 1 102).1.toOption.any
        (fun credited => decide (credited.hash ≠ timestampServer.powHash credited.block
              ((askedTemplates [(1, 100), (2, 101)]).record 5 102).current.seedHash ∧
            credited.hash ≠ timestampServer.powHash credited.block
              ((askedTemplates [(1, 100), (2, 101)]).record 5 102).previous.seedHash))
        = true := by
    decide +kernel
  obtain ⟨credited, accepted, foreign⟩ := exists_ok_of_any differs
  exact ⟨credited, accepted, of_decide_eq_true foreign⟩

end PaymentServer

/-! ## No nonce is paid for twice -/

structure PaymentHistory where
  info : ClientInfo
  templates : List PaymentTemplate
  credited : List (Nat × Nat)

namespace PaymentServer

variable {server : PaymentServer} {client : PublicKey} {history : PaymentHistory}

def extend (server : PaymentServer) (client : PublicKey)
    (history : PaymentHistory) (call : ClientCall) : PaymentHistory :=
  let after := server.respond client history.info call
  { info := after
    templates := if after.cookie = history.info.cookie then history.templates
      else after.current :: history.templates
    credited := match call with
      | .getInfo _ _ _ => history.credited
      | .submitNonce nonce cookie now =>
        match (server.submitNonce history.info nonce cookie now).1 with
        | .ok _ => (cookie, nonce) :: history.credited
        | .error _ => history.credited }

def paymentRun (server : PaymentServer) (client : PublicKey) (created : Nat)
    (calls : List ClientCall) : PaymentHistory :=
  calls.foldl (server.extend client) ⟨.create created, [], []⟩

theorem paymentRun_concat (server : PaymentServer) (client : PublicKey)
    (created : Nat) (calls : List ClientCall) (call : ClientCall) :
    server.paymentRun client created (calls ++ [call]) =
      server.extend client (server.paymentRun client created calls) call := by
  rw [paymentRun, foldl_append]
  rfl

/-- The two latest templates, each with the nonces that were credited for it. -/
structure Remembers (history : PaymentHistory) : Prop where
  cookie : history.info.cookie = history.templates.length % 2 ^ 32
  current : history.info.current = history.templates.getD 0 .unset
  previous : history.info.previous = history.templates.getD 1 .unset
  nonces : ∀ cookie nonce, (cookie, nonce) ∈ history.credited →
    ∃ number, 1 ≤ number ∧ number ≤ history.templates.length ∧ cookie = number % 2 ^ 32 ∧
      (number = history.templates.length → nonce ∈ history.info.payments) ∧
      (number + 1 = history.templates.length → nonce ∈ history.info.previousPayments)

theorem getElem?_of_getD_long {templates : List PaymentTemplate} {index : Nat}
    (long : leastBlobSize ≤ (templates.getD index .unset).hashingBlob.length) :
    templates[index]? = some (templates.getD index .unset) := by
  rw [getD_eq_getElem?_getD] at long ⊢
  cases found : templates[index]? with
  | none =>
    rw [found] at long
    exact absurd long (by decide)
  | some template => rfl

section

variable (remembers : Remembers history)

include remembers

theorem Remembers.credited {nonce cookie now : Nat} {credit : CreditedNonce}
    (accepted : (server.submitNonce history.info nonce cookie now).1 = .ok credit) :
    let after := (server.submitNonce history.info nonce cookie now).2
    ∃ number template, 1 ≤ number ∧ cookie = number % 2 ^ 32 ∧
      credit.hash = server.templateHash template nonce ∧
      ((number = history.templates.length ∧ history.templates[0]? = some template ∧
          nonce ∉ history.info.payments ∧ nonce ∈ after.payments) ∨
        (number + 1 = history.templates.length ∧ history.templates[1]? = some template ∧
          nonce ∉ history.info.previousPayments ∧
          nonce ∈ after.previousPayments)) := by
  obtain ⟨-, ⟨isCurrent, long, hashed, fresh, kept⟩ |
      ⟨_, isPrevious, long, hashed, fresh, kept⟩⟩ := submitNonce_ok accepted
  · rw [remembers.current] at long hashed
    have found := getElem?_of_getD_long long
    obtain ⟨made, _⟩ := List.getElem?_eq_some_iff.mp found
    exact ⟨history.templates.length, _, made, isCurrent.trans remembers.cookie,
      hashed, .inl ⟨rfl, found, fresh, kept⟩⟩
  · rw [remembers.previous] at long hashed
    have found := getElem?_of_getD_long long
    obtain ⟨made, _⟩ := List.getElem?_eq_some_iff.mp found
    refine ⟨history.templates.length - 1, _, by omega, ?_, hashed,
      .inr ⟨by omega, found, fresh, kept⟩⟩
    rw [isPrevious, remembers.cookie, subMod]
    omega

theorem Remembers.getInfo (reply : Option TemplateReply) (top : Hash) (now : Nat) :
    Remembers (server.extend client history (.getInfo reply top now)) := by
  unfold extend respond
  dsimp only
  obtain ⟨current, previous, cookie, payments, previousPayments⟩ |
      ⟨given, template, _, _, current, previous, cookie, payments, previousPayments⟩ :=
    server.getInfo_cases client _ reply top now
  · rw [if_pos cookie]
    refine ⟨cookie.trans remembers.cookie, current.trans remembers.current,
      previous.trans remembers.previous, ?_⟩
    rw [payments, previousPayments]
    exact remembers.nonces
  · have counted := remembers.cookie
    have changed : addMod 32 history.info.cookie 1 ≠ history.info.cookie := by
      rw [addMod]
      omega
    rw [if_neg (by rw [cookie]; exact changed)]
    refine ⟨?_, rfl, ?_, ?_⟩
    · dsimp only
      rw [cookie, addMod, length_cons]
      omega
    · dsimp only
      rw [previous, remembers.current]
      cases history.templates <;> rfl
    · intro paidCookie nonce mem
      obtain ⟨number, pos, made, numbered, latest, _⟩ :=
        remembers.nonces paidCookie nonce mem
      rw [previousPayments, length_cons]
      refine ⟨number, pos, by omega, numbered, ?_, ?_⟩
      · intro newest
        omega
      · intro second
        exact latest (by omega)

theorem Remembers.submitNonce (nonce cookie now : Nat) :
    Remembers (server.extend client history (.submitNonce nonce cookie now)) := by
  unfold extend respond
  dsimp only
  obtain ⟨current, previous, sameCookie, payments, previousPayments⟩ :=
    server.submitNonce_frame _ nonce cookie now
  rw [if_pos sameCookie]
  refine ⟨sameCookie.trans remembers.cookie, current.trans remembers.current,
    previous.trans remembers.previous, ?_⟩
  intro paidCookie paidNonce mem
  dsimp only at mem ⊢
  have prev (paid : (paidCookie, paidNonce) ∈ history.credited) :
      ∃ number, 1 ≤ number ∧ number ≤ history.templates.length ∧ paidCookie = number % 2 ^ 32 ∧
        (number = history.templates.length → paidNonce ∈
          (server.submitNonce history.info nonce cookie now).2.payments) ∧
        (number + 1 = history.templates.length → paidNonce ∈
          (server.submitNonce history.info nonce cookie now).2.previousPayments)
      := by
    obtain ⟨number, pos, made, numbered, latest, second⟩ :=
      remembers.nonces paidCookie paidNonce paid
    exact ⟨number, pos, made, numbered, fun newest =>
      payments (latest newest), fun next => previousPayments (second next)⟩
  cases accepted : (server.submitNonce history.info nonce cookie now).1 with
  | error refused =>
    rw [accepted] at mem
    exact prev mem
  | ok credit =>
    rw [accepted] at mem
    obtain same | paid := mem_cons.mp mem
    · obtain ⟨rfl, rfl⟩ := Prod.mk.inj same
      obtain ⟨number, template, pos, numbered, _, ⟨newest, _, _, kept⟩ | ⟨next, _, _, kept⟩⟩ :=
        remembers.credited accepted
      · exact ⟨number, pos, by omega, numbered, fun _ => kept, fun next => by omega⟩
      · exact ⟨number, pos, by omega, numbered, fun newest => by omega, fun _ => kept⟩
    · exact prev paid

theorem Remembers.extend (call : ClientCall) : Remembers (server.extend client history call) := by
  cases call with
  | getInfo reply top now => exact remembers.getInfo reply top now
  | submitNonce nonce cookie now => exact remembers.submitNonce nonce cookie now

end

theorem remembers_paymentRun (server : PaymentServer) (client : PublicKey)
    (created : Nat) (calls : List ClientCall) :
    Remembers (server.paymentRun client created calls) := by
  induction calls using reverseRecOn with
  | nil =>
    refine ⟨rfl, rfl, rfl, ?_⟩
    intro cookie nonce mem
    cases mem
  | append_singleton calls call ih =>
    rw [paymentRun_concat]
    exact ih.extend call

theorem length_templates_extend (server : PaymentServer) (client : PublicKey)
    (history : PaymentHistory) (call : ClientCall) :
    history.templates.length ≤ (server.extend client history call).templates.length := by
  unfold extend
  dsimp only
  split
  · exact le_rfl
  · exact Nat.le_succ _

theorem nodup_credited_extend (remembers : Remembers history)
    (few : history.templates.length ≤ 2 ^ 32) (once : history.credited.Nodup) (call : ClientCall) :
    (server.extend client history call).credited.Nodup := by
  cases call with
  | getInfo reply top now => exact once
  | submitNonce nonce cookie now =>
    unfold extend
    dsimp only
    cases accepted : (server.submitNonce history.info nonce cookie now).1 with
    | error refused => exact once
    | ok credit =>
      refine nodup_cons.mpr ⟨?_, once⟩
      intro paid
      obtain ⟨paidNumber, paidPositive, made, paidNumbered, latest, second⟩ :=
        remembers.nonces cookie nonce paid
      obtain ⟨number, template, pos, numbered, _,
          ⟨newest, _, fresh, _⟩ | ⟨next, _, fresh, _⟩⟩ :=
        remembers.credited accepted
      · exact fresh (latest (by omega))
      · exact fresh (second (by omega))

theorem nodup_credited_paymentRun (server : PaymentServer) (client : PublicKey)
    (created : Nat) (calls : List ClientCall)
    (few : (server.paymentRun client created calls).templates.length ≤ 2 ^ 32) :
    (server.paymentRun client created calls).credited.Nodup := by
  induction calls using reverseRecOn with
  | nil => exact nodup_nil
  | append_singleton calls call ih =>
    rw [paymentRun_concat] at few ⊢
    have fewBefore := (length_templates_extend server client _ call).trans few
    exact nodup_credited_extend (remembers_paymentRun server client created calls)
      fewBefore (ih fewBefore) call

/-- Until the first cookie returns, a pair of cookie and nonce is credited at most once, and a
credited nonce belongs to the current template or the one before. -/
theorem credited_once (server : PaymentServer) (client : PublicKey)
    (created : Nat) (calls : List ClientCall)
    (few : (server.paymentRun client created calls).templates.length ≤ 2 ^ 32) :
    (server.paymentRun client created calls).credited.Nodup ∧ ∀ before nonce cookie now rest credit,
        calls = before ++ .submitNonce nonce cookie now :: rest →
        (server.submitNonce (server.paymentRun client created before).info
          nonce cookie now).1 = .ok credit →
        let templates := (server.paymentRun client created before).templates
        ∃ template, credit.hash = server.templateHash template nonce ∧
          ((cookie = templates.length % 2 ^ 32 ∧ templates[0]? = some template) ∨
            (cookie = (templates.length - 1) % 2 ^ 32 ∧ templates[1]? = some template)) := by
  refine ⟨nodup_credited_paymentRun server client created calls few, ?_⟩
  intro before nonce cookie now rest credit split accepted
  obtain ⟨number, template, _, numbered, hashed, ⟨newest, found, _, _⟩ | ⟨next, found, _, _⟩⟩ :=
    (remembers_paymentRun server client created before).credited accepted
  · exact ⟨template, hashed, .inl ⟨by rw [numbered, newest], found⟩⟩
  · exact ⟨template, hashed, .inr ⟨by rw [numbered, ← next]; rfl, found⟩⟩

def lateAndRepeated : List ClientCall :=
  [askTemplate 1 100, .submitNonce 7 1 101, askTemplate 2 102,
    .submitNonce 8 1 103, .submitNonce 8 2 103, .submitNonce 8 1 104]

theorem lateAndRepeated_once :
    (timestampServer.paymentRun 5 100 lateAndRepeated).credited = [(2, 8), (1, 8), (1, 7)] ∧
      (timestampServer.paymentRun 5 100 lateAndRepeated).credited.Nodup :=
  ⟨by decide +kernel, (credited_once timestampServer 5 100 lateAndRepeated (by decide +kernel)).1⟩

end PaymentServer

end LodeChain

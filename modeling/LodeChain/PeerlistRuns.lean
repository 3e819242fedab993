import Mathlib.Algebra.Group.Nat.Defs
import Mathlib.Algebra.Order.Group.Int
import Mathlib.Data.List.Chain
import Mathlib.Data.List.Nodup
import Mathlib.Data.List.Perm.Basic

/-!
# Peer lists and blocked hosts

An address is in one list at most, and only a trusted white append changes a time.
-/

namespace LodeChain

structure Ipv6 where
  bytes : BitVec 128
  scopeId : Nat
  deriving DecidableEq, Repr

def htonl (value : UInt32) : UInt32 :=
  let middle : UInt32 := 0xff00
  (value <<< 24) ||| ((value &&& middle) <<< 8) ||| ((value >>> 8) &&& middle) ||| (value >>> 24)

namespace Ipv6

def isV4Mapped (ip : Ipv6) : Bool :=
  ip.bytes >>> 32 == 0xffff#128

def makeAddressV4 (ip : Ipv6) : UInt32 :=
  htonl (UInt32.ofNat (ip.bytes.toNat % 2 ^ 32))

def isLoopback (ip : Ipv6) : Bool :=
  ip.bytes == 1#128

def isLinkLocal (ip : Ipv6) : Bool :=
  ip.bytes >>> 118 == 0x3fa#128

def mapped (ip : UInt32) : Ipv6 :=
  ⟨BitVec.ofNat 128 (0xffff * 2 ^ 32 + (htonl ip).toNat), 0⟩

end Ipv6

def isIpLocal (ip : UInt32) : Bool :=
  let secondNum : UInt32 := (ip >>> 8) % 256
  (ip ||| 0xffffff00) == 0xffffff0a || (ip ||| 0xffff0000) == 0xffffa8c0 ||
    ((ip ||| 0xffffff00) == 0xffffffac && (16 ≤ secondNum && secondNum ≤ 31))

def isIpLoopback (ip : UInt32) : Bool :=
  (ip ||| 0xffffff00) == 0xffffff7f

inductive AddressType
  | invalid
  | ipv4
  | ipv6
  | i2p
  | tor
  deriving DecidableEq, Repr

inductive NetworkAddress
  | none
  | ipv4 (ip : UInt32) (port : UInt16)
  | ipv6 (ip : Ipv6) (port : UInt16)
  | i2p (host : String)
  | tor (host : String) (port : UInt16)
  deriving DecidableEq, Repr

namespace NetworkAddress

def getTypeId : NetworkAddress → AddressType
  | .none => .invalid
  | .ipv4 _ _ => .ipv4
  | .ipv6 _ _ => .ipv6
  | .i2p _ => .i2p
  | .tor _ _ => .tor

def isSameHost : NetworkAddress → NetworkAddress → Bool
  | .none, .none => true
  | .ipv4 ip _, .ipv4 other _ => ip = other
  | .ipv6 ip _, .ipv6 other _ => ip = other
  | .i2p host, .i2p other => host = other
  | .tor host _, .tor other _ => host = other
  | .ipv4 ip _, .ipv6 mapped _ => mapped.isV4Mapped && ip = mapped.makeAddressV4
  | .ipv6 mapped _, .ipv4 ip _ => mapped.isV4Mapped && ip = mapped.makeAddressV4
  | _, _ => false

def isLoopback : NetworkAddress → Bool
  | .ipv4 ip _ => isIpLoopback ip
  | .ipv6 ip _ => ip.isLoopback
  | _ => false

def isLocal : NetworkAddress → Bool
  | .ipv4 ip _ => isIpLocal ip
  | .ipv6 ip _ => ip.isLinkLocal
  | _ => false

/-- `is_blockable`: hidden services are, unless their host is unknown. -/
def isBlockable : NetworkAddress → Bool
  | .none => false
  | .ipv4 _ _ => true
  | .ipv6 _ _ => true
  | .i2p host => !host.startsWith "<"
  | .tor host _ => !host.startsWith "<"

def withoutPort : NetworkAddress → NetworkAddress
  | .ipv4 ip _ => .ipv4 ip 0
  | .ipv6 ip _ => .ipv6 ip 0
  | .tor host _ => .tor host 0
  | address => address

theorem isSameHost_comm (left right : NetworkAddress) :
    left.isSameHost right = right.isSameHost left := by
  cases left <;> cases right <;> simp [isSameHost, eq_comm]

theorem withoutPort_eq_of_isSameHost {left right : NetworkAddress}
    (kind : left.getTypeId = right.getTypeId) (same : left.isSameHost right = true) :
    left.withoutPort = right.withoutPort := by
  cases left <;> cases right <;>
    simp_all [getTypeId, isSameHost, withoutPort]

theorem isSameHost_of_withoutPort_eq {left right : NetworkAddress}
    (same : left.withoutPort = right.withoutPort) : left.isSameHost right = true := by
  cases left <;> cases right <;> simp_all [isSameHost, withoutPort]

theorem getTypeId_withoutPort (address : NetworkAddress) :
    address.withoutPort.getTypeId = address.getTypeId := by
  cases address <;> rfl

end NetworkAddress

/-! ## Peer lists -/

open List

def localWhitePeerlistLimit : Nat := 1000

def localGrayPeerlistLimit : Nat := 5000

structure PeerlistEntry where
  adr : NetworkAddress
  id : UInt64
  lastSeen : Int
  pruningSeed : UInt32
  rpcPort : UInt16
  rpcCreditsPerHash : UInt32
  deriving DecidableEq, Repr

/-- The peers by the time they were last seen, with distinct addresses. -/
structure PeersIndexed where
  rows : List PeerlistEntry
  distinct : (rows.map PeerlistEntry.adr).Nodup
  ordered : rows.Pairwise fun earlier later => earlier.lastSeen ≤ later.lastSeen

namespace PeersIndexed

def insertByTime (entry : PeerlistEntry) : List PeerlistEntry → List PeerlistEntry
  | [] => [entry]
  | first :: rest =>
    if entry.lastSeen < first.lastSeen then entry :: first :: rest
    else first :: insertByTime entry rest

theorem insertByTime_perm (entry : PeerlistEntry) (rows : List PeerlistEntry) :
    (insertByTime entry rows).Perm (entry :: rows) := by
  induction rows with
  | nil => exact .refl _
  | cons first rest ih =>
    rw [insertByTime]
    split
    · exact .refl _
    · exact (ih.cons first).trans (.swap entry first rest)

theorem insertByTime_ordered {entry : PeerlistEntry} {rows : List PeerlistEntry}
    (ordered : rows.Pairwise fun prev later => prev.lastSeen ≤ later.lastSeen) :
    (insertByTime entry rows).Pairwise fun prev later => prev.lastSeen ≤ later.lastSeen := by
  induction rows with
  | nil => exact pairwise_singleton _ _
  | cons first rest ih =>
    obtain ⟨below, later⟩ := pairwise_cons.mp ordered
    rw [insertByTime]
    split
    · rename_i prev
      refine pairwise_cons.mpr ⟨?_, ordered⟩
      intro other mem
      rcases mem_cons.mp mem with rfl | lt
      · exact Int.le_of_lt prev
      · exact Int.le_trans (Int.le_of_lt prev) (below other lt)
    · rename_i notEarlier
      refine pairwise_cons.mpr ⟨?_, ih later⟩
      intro other mem
      rcases mem_cons.mp ((insertByTime_perm entry rest).mem_iff.mp mem) with rfl | lt
      · exact Int.not_lt.mp notEarlier
      · exact below other lt

def empty : PeersIndexed :=
  ⟨[], List.nodup_nil, List.Pairwise.nil⟩

variable (peers : PeersIndexed)

def find? (adr : NetworkAddress) : Option PeerlistEntry :=
  peers.rows.find? fun row => row.adr = adr

def eraseIf (drop : PeerlistEntry → Bool) : PeersIndexed where
  rows := peers.rows.filter fun row => !drop row
  distinct := peers.distinct.sublist (List.filter_sublist.map _)
  ordered := peers.ordered.sublist List.filter_sublist

def erase (adr : NetworkAddress) : PeersIndexed :=
  peers.eraseIf fun row => row.adr = adr

def insertNew (entry : PeerlistEntry)
    (fresh : entry.adr ∉ peers.rows.map PeerlistEntry.adr) : PeersIndexed where
  rows := insertByTime entry peers.rows
  distinct := ((insertByTime_perm entry peers.rows).map _).nodup_iff.mpr
    (List.nodup_cons.mpr ⟨fresh, peers.distinct⟩)
  ordered := insertByTime_ordered peers.ordered

theorem adr_notMem_erase (adr : NetworkAddress) :
    adr ∉ (peers.erase adr).rows.map PeerlistEntry.adr := by
  simp [erase, eraseIf]

def insert (entry : PeerlistEntry) : PeersIndexed :=
  if fresh : entry.adr ∉ peers.rows.map PeerlistEntry.adr then peers.insertNew entry fresh
  else peers

def overwritten (entry : PeerlistEntry) : List PeerlistEntry :=
  peers.rows.map fun row => if row.adr = entry.adr then entry else row

theorem map_adr_overwritten (entry : PeerlistEntry) :
    (peers.overwritten entry).map PeerlistEntry.adr = peers.rows.map PeerlistEntry.adr := by
  rw [overwritten, map_map]
  refine map_congr_left ?_
  intro row _
  simp
  split
  · rename_i same
    exact same.symm
  · rfl

/-- The row stays where it is when that keeps the order, and is inserted anew otherwise. -/
def replace (entry : PeerlistEntry) : PeersIndexed :=
  if ordered : (peers.overwritten entry).Pairwise fun earlier later =>
      earlier.lastSeen ≤ later.lastSeen then
    ⟨peers.overwritten entry, peers.map_adr_overwritten entry ▸ peers.distinct, ordered⟩
  else (peers.erase entry.adr).insertNew entry (peers.adr_notMem_erase entry.adr)

def trim (limit : Nat) : PeersIndexed where
  rows := peers.rows.drop (peers.rows.length - limit)
  distinct := peers.distinct.sublist ((List.drop_sublist _ _).map _)
  ordered := peers.ordered.sublist (List.drop_sublist _ _)

variable {peers : PeersIndexed} {entry row : PeerlistEntry} {adr : NetworkAddress}

theorem find?_spec (found : peers.find? adr = some row) : row ∈ peers.rows ∧ row.adr = adr :=
  ⟨mem_of_find?_eq_some found, by simpa using find?_some found⟩

theorem find?_eq_none : peers.find? adr = none ↔ adr ∉ peers.rows.map PeerlistEntry.adr := by
  simp [find?, List.find?_eq_none]

theorem eq_of_adr_eq {other : PeerlistEntry} (first : row ∈ peers.rows)
    (second : other ∈ peers.rows) (same : row.adr = other.adr) : row = other :=
  inj_on_of_nodup_map peers.distinct first second same

@[simp]
theorem mem_eraseIf {drop : PeerlistEntry → Bool} :
    row ∈ (peers.eraseIf drop).rows ↔ row ∈ peers.rows ∧ drop row = false := by
  simp [eraseIf]

@[simp]
theorem mem_erase : row ∈ (peers.erase adr).rows ↔ row ∈ peers.rows ∧ row.adr ≠ adr := by
  simp [erase]

theorem trim_sublist (peers : PeersIndexed) (limit : Nat) :
    (peers.trim limit).rows.Sublist peers.rows :=
  drop_sublist _ _

theorem mem_of_mem_trim {limit : Nat} (mem : row ∈ (peers.trim limit).rows) : row ∈ peers.rows :=
  (peers.trim_sublist limit).subset mem

theorem length_trim_le (peers : PeersIndexed) (limit : Nat) :
    (peers.trim limit).rows.length ≤ limit := by
  rw [trim, length_drop]
  omega

theorem mem_insert (fresh : entry.adr ∉ peers.rows.map PeerlistEntry.adr) :
    row ∈ (peers.insert entry).rows ↔ row = entry ∨ row ∈ peers.rows := by
  rw [insert, dif_pos fresh, insertNew, (insertByTime_perm _ _).mem_iff, mem_cons]

theorem mem_replace (stored : entry.adr ∈ peers.rows.map PeerlistEntry.adr) :
    row ∈ (peers.replace entry).rows ↔ row = entry ∨ row ∈ peers.rows ∧ row.adr ≠ entry.adr := by
  unfold replace
  split
  · simp [overwritten]
    constructor
    · rintro ⟨other, mem, rfl⟩
      split
      · exact .inl rfl
      · rename_i ne
        exact .inr ⟨mem, ne⟩
    · rintro (rfl | ⟨mem, ne⟩)
      · obtain ⟨other, mem, same⟩ := mem_map.mp stored
        exact ⟨other, mem, if_pos same⟩
      · exact ⟨row, mem, if_neg ne⟩
  · rw [insertNew, (insertByTime_perm _ _).mem_iff, mem_cons, mem_erase]

theorem length_replace (stored : entry.adr ∈ peers.rows.map PeerlistEntry.adr) :
    (peers.replace entry).rows.length = peers.rows.length := by
  unfold replace
  split
  · exact length_map ..
  · obtain ⟨other, mem, same⟩ := mem_map.mp stored
    have erased : (peers.erase entry.adr).rows = peers.rows.erase other := by
      rw [(List.Nodup.of_map _ peers.distinct).erase_eq_filter]
      refine filter_congr ?_
      intro row lt
      by_cases eq : row = other
      · simp [eq, same]
      · have ne : row.adr ≠ entry.adr := fun equalAdr =>
          eq (eq_of_adr_eq lt mem (equalAdr.trans same.symm))
        simp [eq, ne]
    rw [insertNew, (insertByTime_perm _ _).length_eq, length_cons, erased,
      length_erase_of_mem mem]
    have pos := length_pos_of_mem mem
    omega

end PeersIndexed

/-- The white and the gray list; addresses of the local network are accepted on
request only. -/
structure PeerlistManager where
  allowLocalIp : Bool
  white : PeersIndexed
  gray : PeersIndexed

namespace PeerlistManager

def empty (allowLocalIp : Bool) : PeerlistManager :=
  ⟨allowLocalIp, .empty, .empty⟩

variable (peers : PeerlistManager)

def isHostAllowed (address : NetworkAddress) : Bool :=
  if address.isLoopback then false
  else if !peers.allowLocalIp && address.isLocal then false
  else true

def setGray (gray : PeersIndexed) : PeerlistManager :=
  { peers with gray := gray }

@[simp]
theorem white_setGray (gray : PeersIndexed) : (peers.setGray gray).white = peers.white :=
  rfl

@[simp]
theorem gray_setGray (gray : PeersIndexed) : (peers.setGray gray).gray = gray :=
  rfl

def trimWhitePeerlist : PeerlistManager :=
  { peers with white := peers.white.trim localWhitePeerlistLimit }

def trimGrayPeerlist : PeerlistManager :=
  peers.setGray (peers.gray.trim localGrayPeerlistLimit)

@[simp]
theorem white_trimGrayPeerlist : peers.trimGrayPeerlist.white = peers.white := by
  rw [trimGrayPeerlist, white_setGray]

@[simp]
theorem gray_trimGrayPeerlist :
    peers.trimGrayPeerlist.gray = peers.gray.trim localGrayPeerlistLimit := by
  rw [trimGrayPeerlist, gray_setGray]

/-- `filter`: the flag `white` selects the gray list. -/
def filter (white : Bool) (drop : PeerlistEntry → Bool) : PeerlistManager :=
  if white then { peers with gray := peers.gray.eraseIf drop }
  else { peers with white := peers.white.eraseIf drop }

def evictHostFromPeerlist (useWhite : Bool) (pr : PeerlistEntry) : PeerlistManager :=
  peers.filter useWhite fun pe => pe.adr.isSameHost pr.adr

/-- The stored record fills in the pruning seed, the RPC port and, unless the incoming one is
trusted, the time. -/
def updatedRecord (stored ple : PeerlistEntry) (trustLastSeen : Bool) : PeerlistEntry :=
  { ple with
    pruningSeed := if stored.pruningSeed ≠ 0 ∧ ple.pruningSeed = 0 then stored.pruningSeed
      else ple.pruningSeed
    rpcPort := if stored.rpcPort ≠ 0 ∧ ple.rpcPort = 0 then stored.rpcPort
      else ple.rpcPort
    lastSeen := if trustLastSeen then ple.lastSeen else stored.lastSeen }

def updateWhite (ple : PeerlistEntry) (trustLastSeen : Bool) : PeerlistManager :=
  match peers.white.find? ple.adr with
  | none =>
    let evicted := peers.evictHostFromPeerlist true ple
    trimWhitePeerlist { evicted with white := evicted.white.insert ple }
  | some stored =>
    { peers with
      white := peers.white.replace (updatedRecord stored ple trustLastSeen) }

def appendWithPeerWhite (ple : PeerlistEntry) (trustLastSeen : Bool) : PeerlistManager :=
  if peers.isHostAllowed ple.adr then
    let updated := peers.updateWhite ple trustLastSeen
    { updated with gray := updated.gray.erase ple.adr }
  else peers

def appendWithPeerGray (ple : PeerlistEntry) : PeerlistManager :=
  if peers.isHostAllowed ple.adr then
    match peers.white.find? ple.adr with
    | some _ => peers
    | none =>
      match peers.gray.find? ple.adr with
      | none => trimGrayPeerlist { peers with gray := peers.gray.insert ple }
      | some stored =>
        { peers with
          gray := peers.gray.replace (updatedRecord stored ple false) }
  else peers

structure JustSeen where
  peer : UInt64
  addr : NetworkAddress
  pruningSeed : UInt32
  rpcPort : UInt16
  rpcCreditsPerHash : UInt32
  now : Int

def JustSeen.entry (seen : JustSeen) : PeerlistEntry :=
  ⟨seen.addr, seen.peer, seen.now, seen.pruningSeed, seen.rpcPort, seen.rpcCreditsPerHash⟩

def setPeerJustSeen (seen : JustSeen) : PeerlistManager :=
  peers.appendWithPeerWhite seen.entry true

def mergePeerlist (outerBs : List PeerlistEntry)
    (accepts : PeerlistEntry → Bool) : PeerlistManager :=
  trimGrayPeerlist (outerBs.foldl (fun current be =>
      if accepts be then current.appendWithPeerGray be else current) peers)

def removeFromPeerWhite (pe : PeerlistEntry) : PeerlistManager :=
  { peers with white := peers.white.erase pe.adr }

def removeFromPeerGray (pe : PeerlistEntry) : PeerlistManager :=
  { peers with gray := peers.gray.erase pe.adr }

end PeerlistManager

/-! ## Runs of the peer lists -/

inductive PeerlistCall
  | appendWithPeerWhite (ple : PeerlistEntry) (trustLastSeen : Bool)
  | appendWithPeerGray (ple : PeerlistEntry)
  | setPeerJustSeen (seen : PeerlistManager.JustSeen)
  | mergePeerlist (outerBs : List PeerlistEntry) (accepts : PeerlistEntry → Bool)
  | removeFromPeerWhite (pe : PeerlistEntry)
  | removeFromPeerGray (pe : PeerlistEntry)
  | filter (white : Bool) (drop : PeerlistEntry → Bool)

namespace PeerlistManager

def perform (peers : PeerlistManager) : PeerlistCall → PeerlistManager
  | .appendWithPeerWhite ple trustLastSeen => peers.appendWithPeerWhite ple trustLastSeen
  | .appendWithPeerGray ple => peers.appendWithPeerGray ple
  | .setPeerJustSeen seen => peers.setPeerJustSeen seen
  | .mergePeerlist outerBs accepts => peers.mergePeerlist outerBs accepts
  | .removeFromPeerWhite pe => peers.removeFromPeerWhite pe
  | .removeFromPeerGray pe => peers.removeFromPeerGray pe
  | .filter white drop => peers.filter white drop

def reached (allowLocalIp : Bool) (calls : List PeerlistCall) : PeerlistManager :=
  calls.foldl perform (empty allowLocalIp)

variable {peers : PeerlistManager} {ple row : PeerlistEntry} {trustLastSeen : Bool}

theorem updatedRecord_listed {listed : PeersIndexed} {stored : PeerlistEntry}
    (found : listed.find? ple.adr = some stored) :
    (updatedRecord stored ple trustLastSeen).adr ∈ listed.rows.map PeerlistEntry.adr :=
  mem_map.mpr ⟨stored, PeersIndexed.find?_spec found⟩

theorem mem_updateWhite (mem : row ∈ (peers.updateWhite ple trustLastSeen).white.rows) :
    row ∈ peers.white.rows ∧ row.adr ≠ ple.adr ∨
      row.adr = ple.adr ∧ ∀ stored, peers.white.find? ple.adr = some stored →
        trustLastSeen = false → row.lastSeen = stored.lastSeen := by
  unfold updateWhite at mem
  split at mem
  · rename_i absent
    have fresh := PeersIndexed.find?_eq_none.mp absent
    have inserted := PeersIndexed.mem_of_mem_trim mem
    rcases (PeersIndexed.mem_insert fresh).mp inserted with rfl | old
    · exact .inr ⟨rfl, fun stored found => by simp [absent] at found⟩
    · exact .inl ⟨old, fun same => fresh (mem_map.mpr ⟨row, old, same⟩)⟩
  · rename_i stored found
    rcases (PeersIndexed.mem_replace (updatedRecord_listed found)).mp mem with rfl | old
    · refine .inr ⟨rfl, ?_⟩
      rintro other same rfl
      rw [Option.some.inj (found.symm.trans same)]
      rfl
    · exact .inl old

theorem length_updateWhite_le (short : peers.white.rows.length ≤ localWhitePeerlistLimit) :
    (peers.updateWhite ple trustLastSeen).white.rows.length ≤ localWhitePeerlistLimit := by
  unfold updateWhite
  split
  · exact PeersIndexed.length_trim_le _ _
  · rename_i stored found
    exact (PeersIndexed.length_replace (updatedRecord_listed found)).le.trans short

theorem gray_updateWhite_sublist (peers : PeerlistManager) (ple : PeerlistEntry)
    (trustLastSeen : Bool) : (peers.updateWhite ple trustLastSeen).gray.rows.Sublist
      peers.gray.rows := by
  unfold updateWhite
  split
  · exact filter_sublist
  · exact .refl _

theorem mem_appendWithPeerGray (mem : row ∈ (peers.appendWithPeerGray ple).gray.rows) :
    row ∈ peers.gray.rows ∨ row.adr = ple.adr ∧ ple.adr ∉ peers.white.rows.map PeerlistEntry.adr ∧
        ∀ stored, peers.gray.find? ple.adr = some stored → row.lastSeen = stored.lastSeen := by
  unfold appendWithPeerGray at mem
  split at mem
  · split at mem
    · exact .inl mem
    · rename_i unlisted
      have notWhite := PeersIndexed.find?_eq_none.mp unlisted
      split at mem
      · rename_i absent
        have fresh := PeersIndexed.find?_eq_none.mp absent
        have inserted := PeersIndexed.mem_of_mem_trim mem
        rcases (PeersIndexed.mem_insert fresh).mp inserted with rfl | old
        · exact .inr ⟨rfl, notWhite, fun stored found => by simp [absent] at found⟩
        · exact .inl old
      · rename_i stored found
        rcases (PeersIndexed.mem_replace (updatedRecord_listed found)).mp mem with rfl | old
        · refine .inr ⟨rfl, notWhite, fun other same => ?_⟩
          rw [Option.some.inj (found.symm.trans same)]
          rfl
        · exact .inl old.1
  · exact .inl mem

theorem white_appendWithPeerGray (peers : PeerlistManager) (ple : PeerlistEntry) :
    (peers.appendWithPeerGray ple).white = peers.white := by
  unfold appendWithPeerGray
  split
  · split
    · rfl
    · split
      · rw [white_trimGrayPeerlist]
      · rfl
  · rfl

theorem length_appendWithPeerGray_le (short : peers.gray.rows.length ≤ localGrayPeerlistLimit) :
    (peers.appendWithPeerGray ple).gray.rows.length ≤ localGrayPeerlistLimit := by
  unfold appendWithPeerGray
  split
  · split
    · exact short
    · split
      · exact PeersIndexed.length_trim_le _ _
      · rename_i stored found
        exact (PeersIndexed.length_replace (updatedRecord_listed found)).le.trans short
  · exact short

structure Separate (peers : PeerlistManager) : Prop where
  disjoint : ∀ white ∈ peers.white.rows, ∀ gray ∈ peers.gray.rows, white.adr ≠ gray.adr
  whiteShort : peers.white.rows.length ≤ localWhitePeerlistLimit
  grayShort : peers.gray.rows.length ≤ localGrayPeerlistLimit

variable {after : PeerlistManager}

section

variable (separate : peers.Separate)

include separate

theorem Separate.of_sublist (white : after.white.rows.Sublist peers.white.rows)
    (gray : after.gray.rows.Sublist peers.gray.rows) : after.Separate where
  disjoint whiteRow whiteMember grayRow grayMember :=
    separate.disjoint whiteRow (white.subset whiteMember) grayRow (gray.subset grayMember)
  whiteShort := white.length_le.trans separate.whiteShort
  grayShort := gray.length_le.trans separate.grayShort

theorem Separate.appendWithPeerWhite : (peers.appendWithPeerWhite ple trustLastSeen).Separate := by
  unfold PeerlistManager.appendWithPeerWhite
  split
  · have gray := gray_updateWhite_sublist peers ple trustLastSeen
    refine ⟨?_, length_updateWhite_le separate.whiteShort,
      (filter_sublist.length_le.trans gray.length_le).trans separate.grayShort⟩
    intro whiteRow whiteMember grayRow grayMember
    obtain ⟨remaining, other⟩ := PeersIndexed.mem_erase.mp grayMember
    rcases mem_updateWhite whiteMember with ⟨old, -⟩ | ⟨same, -⟩
    · exact separate.disjoint whiteRow old grayRow (gray.subset remaining)
    · rw [same]
      exact other.symm
  · exact separate

theorem Separate.appendWithPeerGray : (peers.appendWithPeerGray ple).Separate := by
  refine ⟨?_, ?_, length_appendWithPeerGray_le separate.grayShort⟩
  · rw [white_appendWithPeerGray]
    intro whiteRow whiteMember grayRow grayMember
    rcases mem_appendWithPeerGray grayMember with old | ⟨same, notWhite, -⟩
    · exact separate.disjoint whiteRow whiteMember grayRow old
    · rw [same]
      exact fun eq => notWhite (mem_map.mpr ⟨whiteRow, whiteMember, eq⟩)
  · rw [white_appendWithPeerGray]
    exact separate.whiteShort

theorem Separate.trimGrayPeerlist : peers.trimGrayPeerlist.Separate := by
  refine separate.of_sublist ?_ ?_
  · rw [white_trimGrayPeerlist]
  · rw [gray_trimGrayPeerlist]
    exact PeersIndexed.trim_sublist _ _

theorem Separate.mergePeerlist (outerBs : List PeerlistEntry) (accepts : PeerlistEntry → Bool) :
    (peers.mergePeerlist outerBs accepts).Separate := by
  refine Separate.trimGrayPeerlist ?_
  induction outerBs generalizing peers with
  | nil => exact separate
  | cons be rest ih =>
    rw [foldl_cons]
    split
    · exact ih separate.appendWithPeerGray
    · exact ih separate

theorem Separate.perform (call : PeerlistCall) : (peers.perform call).Separate := by
  cases call with
  | appendWithPeerWhite ple trustLastSeen => exact separate.appendWithPeerWhite
  | appendWithPeerGray ple => exact separate.appendWithPeerGray
  | setPeerJustSeen seen => exact separate.appendWithPeerWhite
  | mergePeerlist outerBs accepts => exact separate.mergePeerlist outerBs accepts
  | removeFromPeerWhite pe => exact separate.of_sublist filter_sublist (.refl _)
  | removeFromPeerGray pe => exact separate.of_sublist (.refl _) filter_sublist
  | filter white drop =>
    cases white with
    | true => exact separate.of_sublist (.refl _) filter_sublist
    | false => exact separate.of_sublist filter_sublist (.refl _)

end

theorem separate_reached (allowLocalIp : Bool) (calls : List PeerlistCall) :
    (reached allowLocalIp calls).Separate := by
  induction calls using List.reverseRecOn with
  | nil => exact ⟨by simp [reached, empty, PeersIndexed.empty], Nat.zero_le _, Nat.zero_le _⟩
  | append_singleton earlier call ih =>
    rw [reached, foldl_append]
    exact ih.perform call

def Trusts (adr : NetworkAddress) : PeerlistCall → Prop
  | .appendWithPeerWhite ple trustLastSeen => trustLastSeen = true ∧ ple.adr = adr
  | .setPeerJustSeen seen => seen.addr = adr
  | _ => False

/-- The times stay, unless the call is a trusted white append of the address. -/
structure KeepsLastSeen (call : PeerlistCall) (before after : PeerlistManager) : Prop where
  white : ∀ old ∈ before.white.rows, ∀ new ∈ after.white.rows,
    old.adr = new.adr → new.lastSeen = old.lastSeen ∨ Trusts old.adr call
  gray : ∀ old ∈ before.gray.rows, ∀ new ∈ after.gray.rows,
    old.adr = new.adr → new.lastSeen = old.lastSeen

variable {call : PeerlistCall}

theorem KeepsLastSeen.of_sublist (white : after.white.rows.Sublist peers.white.rows)
    (gray : after.gray.rows.Sublist peers.gray.rows) : KeepsLastSeen call peers after where
  white old oldMember new newMember same := by
    rw [PeersIndexed.eq_of_adr_eq oldMember (white.subset newMember) same]
    exact .inl rfl
  gray old oldMember new newMember same := by
    rw [PeersIndexed.eq_of_adr_eq oldMember (gray.subset newMember) same]

theorem find?_of_mem {stored : PeersIndexed} {adr : NetworkAddress}
    (mem : row ∈ stored.rows) (same : row.adr = adr) : stored.find? adr = some row := by
  cases found : stored.find? adr with
  | none => exact absurd (mem_map.mpr ⟨row, mem, same⟩) (PeersIndexed.find?_eq_none.mp found)
  | some other =>
    obtain ⟨otherMember, otherSame⟩ := PeersIndexed.find?_spec found
    rw [PeersIndexed.eq_of_adr_eq otherMember mem (otherSame.trans same.symm)]

theorem keepsLastSeen_appendWithPeerWhite (trusts : trustLastSeen = true → Trusts ple.adr call) :
    KeepsLastSeen call peers (peers.appendWithPeerWhite ple trustLastSeen) := by
  unfold appendWithPeerWhite
  split
  · constructor
    · intro old oldMember new newMember same
      rcases mem_updateWhite newMember with ⟨kept, -⟩ | ⟨changed, times⟩
      · rw [PeersIndexed.eq_of_adr_eq oldMember kept same]
        exact .inl rfl
      · have found := find?_of_mem oldMember (same.trans changed)
        cases trustLastSeen with
        | true =>
          rw [same, changed]
          exact .inr (trusts rfl)
        | false => exact .inl (times old found rfl)
    · intro old oldMember new newMember same
      have remaining := (PeersIndexed.mem_erase.mp newMember).1
      rw [PeersIndexed.eq_of_adr_eq oldMember
        ((gray_updateWhite_sublist _ _ _).subset remaining) same]
  · exact .of_sublist (.refl _) (.refl _)

theorem keepsLastSeen_appendWithPeerGray (call : PeerlistCall) :
    KeepsLastSeen call peers (peers.appendWithPeerGray ple) := by
  constructor
  · rw [white_appendWithPeerGray]
    exact (KeepsLastSeen.of_sublist (.refl _) (.refl _)).white
  · intro old oldMember new newMember same
    rcases mem_appendWithPeerGray newMember with kept | ⟨changed, -, times⟩
    · rw [PeersIndexed.eq_of_adr_eq oldMember kept same]
    · exact times old (find?_of_mem oldMember (same.trans changed))

/-- The lists `merge_peerlist` goes through, one for each record and one after
the last trim. -/
def mergeStages (accepts : PeerlistEntry → Bool) (peers : PeerlistManager) :
    List PeerlistEntry → List PeerlistManager
  | [] => [peers.trimGrayPeerlist]
  | be :: rest =>
    let next := if accepts be then peers.appendWithPeerGray be else peers
    next :: mergeStages accepts next rest

def stages (peers : PeerlistManager) : PeerlistCall → List PeerlistManager
  | .mergePeerlist outerBs accepts => mergeStages accepts peers outerBs
  | call => [peers.perform call]

theorem getLast?_mergeStages (accepts : PeerlistEntry → Bool)
    (peers : PeerlistManager) (outerBs : List PeerlistEntry) :
    (mergeStages accepts peers outerBs).getLast? = some (peers.mergePeerlist outerBs accepts) := by
  induction outerBs generalizing peers with
  | nil => rfl
  | cons be rest ih =>
    rw [mergeStages, getLast?_cons, ih]
    rfl

theorem getLast?_stages (peers : PeerlistManager) (call : PeerlistCall) :
    (peers.stages call).getLast? = some (peers.perform call) := by
  cases call with
  | mergePeerlist outerBs accepts => exact getLast?_mergeStages accepts peers outerBs
  | _ => rfl

theorem isChain_mergeStages (call : PeerlistCall)
    (accepts : PeerlistEntry → Bool) (peers : PeerlistManager) (outerBs : List PeerlistEntry) :
    (peers :: mergeStages accepts peers outerBs).IsChain (KeepsLastSeen call) := by
  induction outerBs generalizing peers with
  | nil =>
    refine isChain_pair.mpr (.of_sublist ?_ ?_)
    · rw [white_trimGrayPeerlist]
    · rw [gray_trimGrayPeerlist]
      exact PeersIndexed.trim_sublist _ _
  | cons be rest ih =>
    refine isChain_cons_cons.mpr ⟨?_, ih _⟩
    split
    · exact keepsLastSeen_appendWithPeerGray call
    · exact .of_sublist (.refl _) (.refl _)

theorem isChain_stages (peers : PeerlistManager) (call : PeerlistCall) :
    (peers :: peers.stages call).IsChain (KeepsLastSeen call) := by
  cases call with
  | mergePeerlist outerBs accepts => exact isChain_mergeStages _ accepts peers outerBs
  | appendWithPeerWhite ple trustLastSeen =>
    exact isChain_pair.mpr (keepsLastSeen_appendWithPeerWhite fun trusted => ⟨trusted, rfl⟩)
  | setPeerJustSeen seen => exact isChain_pair.mpr (keepsLastSeen_appendWithPeerWhite fun _ => rfl)
  | appendWithPeerGray ple => exact isChain_pair.mpr (keepsLastSeen_appendWithPeerGray _)
  | removeFromPeerWhite pe => exact isChain_pair.mpr (.of_sublist filter_sublist (.refl _))
  | removeFromPeerGray pe => exact isChain_pair.mpr (.of_sublist (.refl _) filter_sublist)
  | filter white drop =>
    refine isChain_pair.mpr ?_
    cases white with
    | true => exact .of_sublist (.refl _) filter_sublist
    | false => exact .of_sublist filter_sublist (.refl _)

/-- The lists share no address and keep to their limits, and only a trusted white append changes the
time of an entry that stays. -/
theorem reached_separate_keepsLastSeen (allowLocalIp : Bool) (calls : List PeerlistCall) :
    (∀ white ∈ (reached allowLocalIp calls).white.rows,
        ∀ gray ∈ (reached allowLocalIp calls).gray.rows, white.adr ≠ gray.adr) ∧
      (reached allowLocalIp calls).white.rows.length ≤ localWhitePeerlistLimit ∧
      (reached allowLocalIp calls).gray.rows.length ≤ localGrayPeerlistLimit ∧
      ∀ call, ((reached allowLocalIp calls).stages call).getLast? =
          some (reached allowLocalIp (calls ++ [call])) ∧
        (reached allowLocalIp calls :: (reached allowLocalIp calls).stages call).IsChain
            (KeepsLastSeen call) := by
  obtain ⟨disjoint, whiteShort, grayShort⟩ := separate_reached allowLocalIp calls
  refine ⟨disjoint, whiteShort, grayShort, ?_⟩
  intro call
  refine ⟨?_, isChain_stages _ call⟩
  rw [getLast?_stages, reached, reached, foldl_append]
  rfl

def OneEntryPerHost (peers : PeerlistManager) : Prop :=
  ∀ left ∈ peers.white.rows, ∀ right ∈ peers.white.rows,
    left.adr.isSameHost right.adr = true → left = right

instance (peers : PeerlistManager) : Decidable peers.OneEntryPerHost :=
  inferInstanceAs (Decidable (∀ _ ∈ _, ∀ _ ∈ _, _ → _))

def NewHost (peers : PeerlistManager) (adr : NetworkAddress) : Prop :=
  peers.isHostAllowed adr = true → adr ∉ peers.white.rows.map PeerlistEntry.adr →
      ∀ row ∈ peers.white.rows, row.adr.isSameHost adr = false

def BringsNewHost (peers : PeerlistManager) : PeerlistCall → Prop
  | .appendWithPeerWhite ple _ => peers.NewHost ple.adr
  | .setPeerJustSeen seen => peers.NewHost seen.addr
  | _ => True

def BringsNewHosts (peers : PeerlistManager) : List PeerlistCall → Prop
  | [] => True
  | call :: later => peers.BringsNewHost call ∧ (peers.perform call).BringsNewHosts later

theorem OneEntryPerHost.of_subset (one : peers.OneEntryPerHost)
    (white : ∀ row ∈ after.white.rows, row ∈ peers.white.rows) : after.OneEntryPerHost := by
  intro left leftMember right rightMember same
  exact one left (white left leftMember) right (white right rightMember) same

theorem OneEntryPerHost.appendWithPeerWhite (one : peers.OneEntryPerHost)
    (newHost : peers.NewHost ple.adr) :
    (peers.appendWithPeerWhite ple trustLastSeen).OneEntryPerHost := by
  unfold PeerlistManager.appendWithPeerWhite
  split
  · rename_i allowed
    have alone : ∀ row ∈ peers.white.rows, row.adr ≠ ple.adr →
        row.adr.isSameHost ple.adr = false := by
      intro row mem other
      by_cases listed : ple.adr ∈ peers.white.rows.map PeerlistEntry.adr
      · obtain ⟨stored, storedMember, storedSame⟩ := mem_map.mp listed
        rw [← storedSame, Bool.eq_false_iff]
        intro same
        exact other (one row mem stored storedMember same ▸ storedSame)
      · exact newHost allowed listed row mem
    intro left leftMember right rightMember same
    rcases mem_updateWhite leftMember with ⟨leftOld, leftOther⟩ | ⟨leftNew, -⟩
    · rcases mem_updateWhite rightMember with ⟨rightOld, -⟩ | ⟨rightNew, -⟩
      · exact one left leftOld right rightOld same
      · rw [rightNew, alone left leftOld leftOther] at same
        simp at same
    · rcases mem_updateWhite rightMember with ⟨rightOld, rightOther⟩ | ⟨rightNew, -⟩
      · rw [leftNew, NetworkAddress.isSameHost_comm, alone right rightOld rightOther] at same
        simp at same
      · exact PeersIndexed.eq_of_adr_eq leftMember rightMember (leftNew.trans rightNew.symm)
  · exact one

theorem white_mergePeerlist (peers : PeerlistManager)
    (outerBs : List PeerlistEntry) (accepts : PeerlistEntry → Bool) :
    (peers.mergePeerlist outerBs accepts).white = peers.white := by
  rw [mergePeerlist, white_trimGrayPeerlist]
  induction outerBs generalizing peers with
  | nil => rfl
  | cons be rest ih =>
    rw [foldl_cons, ih]
    split
    · exact white_appendWithPeerGray peers be
    · rfl

theorem OneEntryPerHost.perform (one : peers.OneEntryPerHost) (brings : peers.BringsNewHost call) :
    (peers.perform call).OneEntryPerHost := by
  cases call with
  | appendWithPeerWhite ple trustLastSeen => exact one.appendWithPeerWhite brings
  | setPeerJustSeen seen => exact one.appendWithPeerWhite brings
  | appendWithPeerGray ple =>
    refine one.of_subset fun row mem => ?_
    rwa [PeerlistManager.perform, white_appendWithPeerGray] at mem
  | mergePeerlist outerBs accepts =>
    refine one.of_subset fun row mem => ?_
    rwa [PeerlistManager.perform, white_mergePeerlist] at mem
  | removeFromPeerWhite pe => exact one.of_subset fun row mem => mem_of_mem_filter mem
  | removeFromPeerGray pe => exact one
  | filter white drop =>
    cases white with
    | true => exact one
    | false => exact one.of_subset fun row mem => mem_of_mem_filter mem

/-- While white appends are of new hosts, every state has at most one white entry for a host. -/
theorem reached_oneEntryPerHost {allowLocalIp : Bool} {calls : List PeerlistCall}
    (brings : (empty allowLocalIp).BringsNewHosts calls) (count : Nat) :
    (reached allowLocalIp (calls.take count)).OneEntryPerHost := by
  have start : (empty allowLocalIp).OneEntryPerHost := by
    simp [OneEntryPerHost, empty, PeersIndexed.empty]
  unfold reached
  generalize empty allowLocalIp = peers at brings start
  induction calls generalizing peers count with
  | nil => simpa using start
  | cons call later ih =>
    cases count with
    | zero => exact start
    | succ earlier =>
      obtain ⟨first, rest⟩ := brings
      exact ih earlier _ rest (start.perform first)

def peerAt (port : UInt16) : PeerlistEntry :=
  ⟨.ipv4 0x04030201 port, 7, 100, 0, 0, 0⟩

def otherPeer : PeerlistEntry :=
  ⟨.ipv4 0x08070605 18080, 8, 200, 0, 0, 0⟩

theorem twoHosts_oneEntryPerHost : (reached false [.appendWithPeerWhite (peerAt 18080) true,
      .appendWithPeerWhite otherPeer false]).OneEntryPerHost := by
  have brings : (empty false).BringsNewHosts [.appendWithPeerWhite (peerAt 18080) true,
        .appendWithPeerWhite otherPeer false] := by
    refine ⟨?_, ?_, trivial⟩
    · intro _ _ row member
      exact absurd member not_mem_nil
    · intro _ _
      decide
  exact reached_oneEntryPerHost brings 2

theorem twoPorts_white : ¬ (reached false [.appendWithPeerWhite (peerAt 18080) true,
      .appendWithPeerWhite (peerAt 18081) true]).OneEntryPerHost := by
  decide

end PeerlistManager

/-! ## Blocked hosts

The first octet of a stored address is its lowest byte, so the mask of a subnet takes whole octets
from the front but the low bits of the octet it cuts. -/

def timeMax : Int := 2 ^ 63 - 1

structure Ipv4NetworkSubnet where
  ip : UInt32
  mask : Nat
  deriving DecidableEq, Repr

def Ipv4NetworkSubnet.matches (subnet : Ipv4NetworkSubnet) (ip : UInt32) : Bool :=
  ip.toNat % 2 ^ subnet.mask == subnet.ip.toNat % 2 ^ subnet.mask

namespace Ipv4NetworkSubnet

variable (subnet : Ipv4NetworkSubnet)

/-- A bit in the order of CIDR, from the highest of the first octet on. -/
def cidrBit (ip : UInt32) (index : Nat) : Bool :=
  ip.toNat.testBit (8 * (index / 8) + (7 - index % 8))

/-- What `matches` is to decide. -/
def Covers (ip : UInt32) : Prop :=
  ∀ index < subnet.mask, cidrBit ip index = cidrBit subnet.ip index

theorem matches_iff_testBit (ip : UInt32) : subnet.matches ip = true ↔
      ∀ index < subnet.mask, ip.toNat.testBit index = subnet.ip.toNat.testBit index := by
  rw [Ipv4NetworkSubnet.matches, beq_iff_eq]
  constructor
  · intro same index lt
    have bits := congrArg (Nat.testBit · index) same
    simpa [Nat.testBit_mod_two_pow, lt] using bits
  · intro same
    apply Nat.eq_of_testBit_eq
    intro index
    by_cases lt : index < subnet.mask
    · simp [Nat.testBit_mod_two_pow, same index lt]
    · simp [Nat.testBit_mod_two_pow, lt]

/-- An address that differs in the lowest bit of the octet that the mask cuts. -/
def neighbour : UInt32 :=
  UInt32.ofNat (subnet.ip.toNat ^^^ 2 ^ (8 * (subnet.mask / 8)))

variable {subnet}

theorem testBit_neighbour (cut : subnet.mask / 8 < 4) (index : Nat) :
    subnet.neighbour.toNat.testBit index =
      (subnet.ip.toNat.testBit index ^^ decide (8 * (subnet.mask / 8) = index)) := by
  have small : 2 ^ (8 * (subnet.mask / 8)) < 2 ^ 32 := Nat.pow_lt_pow_right (by omega) (by omega)
  rw [neighbour, UInt32.toNat_ofNat_of_lt' (Nat.xor_lt_two_pow subnet.ip.toNat_lt small),
    Nat.testBit_xor, Nat.testBit_two_pow]

theorem covers_neighbour (cut : subnet.mask / 8 < 4) : subnet.Covers subnet.neighbour := by
  intro index inside
  have other : 8 * (subnet.mask / 8) ≠ 8 * (index / 8) + (7 - index % 8) := by omega
  rw [cidrBit, testBit_neighbour cut, decide_eq_false other, Bool.xor_false, cidrBit]

/-- A subnet matches the addresses that CIDR puts into it exactly when its prefix length is made of
whole octets. -/
theorem matches_iff_covers_iff (range : subnet.mask ≤ 32) :
    (∀ ip, subnet.matches ip = true ↔ subnet.Covers ip) ↔ subnet.mask % 8 = 0 := by
  constructor
  · intro same
    by_contra cut
    have bits := (matches_iff_testBit _ _).mp ((same _).mpr (covers_neighbour (by omega)))
    have bit := bits (8 * (subnet.mask / 8)) (by omega)
    rw [testBit_neighbour (by omega), decide_eq_true rfl, Bool.xor_true] at bit
    exact Bool.not_ne_self _ bit
  · intro whole ip
    rw [matches_iff_testBit]
    constructor
    · intro same index inside
      exact same _ (by omega)
    · intro covered index inside
      have bit := covered (8 * (index / 8) + (7 - index % 8)) (by omega)
      rwa [cidrBit, cidrBit, show 8 * ((8 * (index / 8) + (7 - index % 8)) / 8) +
        (7 - (8 * (index / 8) + (7 - index % 8)) % 8) = index by omega] at bit

theorem classC_covers :
    Covers ⟨0x0001a8c0, 24⟩ 0x0501a8c0 ∧ ¬Covers ⟨0x0001a8c0, 24⟩ 0x0502a8c0 := by
  have covers := (@matches_iff_covers_iff ⟨0x0001a8c0, 24⟩ (by decide)).mpr (by decide)
  exact ⟨(covers _).mp (by decide), fun covered => absurd ((covers _).mpr covered) (by decide)⟩

theorem covers_not_matches : Covers ⟨0, 1⟩ 1 ∧ Ipv4NetworkSubnet.matches ⟨0, 1⟩ 1 = false := by
  refine ⟨fun index inside => ?_, by decide⟩
  have first : index = 0 := Nat.lt_one_iff.mp inside
  subst first
  decide

end Ipv4NetworkSubnet

structure BlockedHosts (Text : Type) where
  hosts : Text → Option Int
  subnets : List (Ipv4NetworkSubnet × Int)

namespace BlockedHosts

variable {Text : Type} [DecidableEq Text] (hostStr : NetworkAddress → Text)

def empty : BlockedHosts Text :=
  ⟨fun _ => none, []⟩

/-- Expired subnets are erased on the way to the first that matches. The source then logs the subnet
at the iterator that `erase` returned, which is past the end for the last one; the model has no log.
-/
def checkSubnets (now : Int) (ip : UInt32) :
    List (Ipv4NetworkSubnet × Int) → List (Ipv4NetworkSubnet × Int) × Option Int
  | [] => ([], none)
  | (subnet, limit) :: rest =>
    if limit ≤ now then checkSubnets now ip rest
    else if subnet.matches ip then ((subnet, limit) :: rest, some (limit - now))
    else
      let checked := checkSubnets now ip rest
      ((subnet, limit) :: checked.1, checked.2)

variable (blocked : BlockedHosts Text)

def checkAddress (now : Int) : NetworkAddress → Option Int × BlockedHosts Text
  | .ipv4 ip _ =>
    let checked := checkSubnets now ip blocked.subnets
    (checked.2, { blocked with subnets := checked.1 })
  | _ => (none, blocked)

def isRemoteHostAllowed (now : Int) (address : NetworkAddress) : Option Int × BlockedHosts Text :=
  match blocked.hosts (hostStr address) with
  | none => blocked.checkAddress now address
  | some limit =>
    if limit ≤ now then
      checkAddress { blocked with
          hosts := Function.update blocked.hosts (hostStr address) none }
        now address
    else (some (limit - now), blocked)

def blockLimit (now seconds : Int) : Int :=
  if timeMax - seconds < now then timeMax else now + seconds

/-- `block_host` without the connections and the peer lists it clears. -/
def blockHost (now : Int) (addr : NetworkAddress)
    (seconds : Int) (addOnly : Bool) : Bool × BlockedHosts Text :=
  if addr.isBlockable then
    let limit := blockLimit now seconds
    match blocked.hosts (hostStr addr) with
    | none =>
      (true, { blocked with
          hosts := Function.update blocked.hosts (hostStr addr) (some limit) })
    | some stored =>
      if stored < limit ∨ addOnly = false then
        (true, { blocked with
            hosts := Function.update blocked.hosts (hostStr addr) (some limit) })
      else (true, blocked)
  else (false, blocked)

def unblockHost (address : NetworkAddress) : Bool × BlockedHosts Text :=
  match blocked.hosts (hostStr address) with
  | none => (false, blocked)
  | some _ =>
    (true, { blocked with
        hosts := Function.update blocked.hosts (hostStr address) none })

end BlockedHosts

inductive HostCall
  | blockHost (addr : NetworkAddress) (seconds : Int) (addOnly : Bool)
  | unblockHost (address : NetworkAddress)
  | isRemoteHostAllowed (address : NetworkAddress)

def HostCall.Lifts (host : NetworkAddress) : HostCall → Prop
  | .blockHost addr _ addOnly => addOnly = false ∧ host.isSameHost addr = true
  | .unblockHost address => host.isSameHost address = true
  | .isRemoteHostAllowed _ => False

namespace BlockedHosts

variable {Text : Type} [DecidableEq Text] (hostStr : NetworkAddress → Text)
  (blocked : BlockedHosts Text)

def perform (timed : Int × HostCall) : BlockedHosts Text :=
  match timed.2 with
  | .blockHost addr seconds addOnly => (blocked.blockHost hostStr timed.1 addr seconds addOnly).2
  | .unblockHost address => (blocked.unblockHost hostStr address).2
  | .isRemoteHostAllowed address => (blocked.isRemoteHostAllowed hostStr timed.1 address).2

def run (calls : List (Int × HostCall)) : BlockedHosts Text :=
  calls.foldl (perform hostStr) blocked

def Timeline (start : Int) (calls : List (Int × HostCall)) (finish : Int) : Prop :=
  (start :: calls.map Prod.fst ++ [finish]).Pairwise (· ≤ ·)

def BlockedUntil (text : Text) (until_ : Int) : Prop :=
  ∃ limit, blocked.hosts text = some limit ∧ until_ ≤ limit

variable {hostStr} {blocked : BlockedHosts Text} {host : NetworkAddress} {until_ now : Int}

omit [DecidableEq Text] in
theorem hosts_checkAddress (blocked : BlockedHosts Text) (now : Int) (address : NetworkAddress) :
    (blocked.checkAddress now address).2.hosts = blocked.hosts := by
  cases address <;> rfl

variable {text : Text} {seconds : Int} {addOnly : Bool}

theorem BlockedUntil.isRemoteHostAllowed
    (held : blocked.BlockedUntil text until_) (early : now < until_) (address : NetworkAddress) :
    (blocked.isRemoteHostAllowed hostStr now address).2.BlockedUntil text until_ := by
  obtain ⟨limit, stored, longer⟩ := held
  unfold BlockedHosts.isRemoteHostAllowed
  split
  · exact ⟨limit, by rw [hosts_checkAddress]; exact stored, longer⟩
  · rename_i other found
    split
    · rename_i expired
      have ne : text ≠ hostStr address := by
        rintro rfl
        rw [found, Option.some.injEq] at stored
        omega
      refine ⟨limit, ?_, longer⟩
      rw [hosts_checkAddress]
      exact (Function.update_of_ne ne _ _).trans stored
    · exact ⟨limit, stored, longer⟩

variable {address addr : NetworkAddress}

theorem BlockedUntil.refused
    (held : blocked.BlockedUntil (hostStr address) until_) (early : now < until_) :
    (blocked.isRemoteHostAllowed hostStr now address).1 ≠ none := by
  obtain ⟨limit, stored, longer⟩ := held
  unfold BlockedHosts.isRemoteHostAllowed
  rw [stored]
  dsimp only
  rw [if_neg (by omega)]
  simp

theorem BlockedUntil.blockHost (held : blocked.BlockedUntil text until_)
    (keeps : addOnly = false → hostStr addr ≠ text) :
    (blocked.blockHost hostStr now addr seconds addOnly).2.BlockedUntil text until_ := by
  obtain ⟨limit, stored, longer⟩ := held
  unfold BlockedHosts.blockHost
  split
  · dsimp only
    split
    · rename_i absent
      have ne : text ≠ hostStr addr := by
        rintro rfl
        simp [absent] at stored
      exact ⟨limit, (Function.update_of_ne ne _ _).trans stored, longer⟩
    · rename_i other found
      split
      · rename_i replaced
        by_cases same : text = hostStr addr
        · subst same
          have kept : addOnly = true := by
            by_contra forced
            exact keeps (by simpa using forced) rfl
          rw [found, Option.some.injEq] at stored
          have extended : other < blockLimit now seconds := by simpa [kept] using replaced
          exact ⟨_, Function.update_self _ _ _, by omega⟩
        · exact ⟨limit, (Function.update_of_ne same _ _).trans stored, longer⟩
      · exact ⟨limit, stored, longer⟩
  · exact ⟨limit, stored, longer⟩

theorem BlockedUntil.unblockHost
    (held : blocked.BlockedUntil text until_) (keeps : hostStr address ≠ text) :
    (blocked.unblockHost hostStr address).2.BlockedUntil text until_ := by
  obtain ⟨limit, stored, longer⟩ := held
  unfold BlockedHosts.unblockHost
  split
  · exact ⟨limit, stored, longer⟩
  · exact ⟨limit, (Function.update_of_ne keeps.symm _ _).trans stored, longer⟩

theorem blockHost_blockedUntil
    (made : (blocked.blockHost hostStr now addr seconds addOnly).1 = true) :
    (blocked.blockHost hostStr now addr seconds addOnly).2.BlockedUntil
      (hostStr addr) (blockLimit now seconds) := by
  unfold BlockedHosts.blockHost at made ⊢
  split at made
  · rename_i blockable
    rw [if_pos blockable]
    dsimp only
    split
    · exact ⟨_, Function.update_self _ _ _, le_rfl⟩
    · rename_i stored found
      split
      · exact ⟨_, Function.update_self _ _ _, le_rfl⟩
      · rename_i kept
        push Not at kept
        exact ⟨stored, found, kept.1⟩
  · simp at made

theorem blockHost_empty (blockable : host.isBlockable = true) :
    ((empty : BlockedHosts Text).blockHost hostStr now host seconds addOnly).2 =
      ⟨Function.update (fun _ => none) (hostStr host) (some (blockLimit now seconds)), []⟩ := by
  rw [BlockedHosts.blockHost, if_pos blockable]
  rfl

theorem allowed_single {looked : NetworkAddress} {limit : Int}
    (outside : hostStr looked ≠ text ∨ limit ≤ now) : (isRemoteHostAllowed hostStr
      ⟨Function.update (fun _ => none) text (some limit), []⟩ now looked).1 = none := by
  have passes : ∀ hosts : Text → Option Int, (checkAddress ⟨hosts, []⟩ now looked).1 = none := by
    intro hosts
    cases looked <;> rfl
  unfold BlockedHosts.isRemoteHostAllowed
  dsimp only
  by_cases same : hostStr looked = text
  · rw [same, Function.update_self]
    dsimp only
    rw [if_pos (outside.resolve_left (not_not.mpr same))]
    exact passes _
  · rw [Function.update_of_ne same]
    exact passes _

section Printed

variable (printed : ∀ left right, hostStr left = hostStr right ↔
  left.withoutPort = right.withoutPort)

include printed

theorem BlockedUntil.perform {timed : Int × HostCall}
    (held : blocked.BlockedUntil (hostStr host) until_)
    (early : timed.1 < until_) (kept : ¬ timed.2.Lifts host) :
    (blocked.perform hostStr timed).BlockedUntil (hostStr host) until_ := by
  have sameHost : ∀ address, hostStr address = hostStr host →
      host.isSameHost address = true := fun address same =>
    NetworkAddress.isSameHost_of_withoutPort_eq ((printed _ _).mp same.symm)
  obtain ⟨time, call⟩ := timed
  cases call with
  | blockHost addr seconds addOnly =>
    exact held.blockHost fun forced same => kept ⟨forced, sameHost addr same⟩
  | unblockHost address => exact held.unblockHost fun same => kept (sameHost address same)
  | isRemoteHostAllowed address => exact held.isRemoteHostAllowed early address

theorem BlockedUntil.run {calls : List (Int × HostCall)}
    (held : blocked.BlockedUntil (hostStr host) until_) (early : ∀ timed ∈ calls, timed.1 < until_)
    (kept : ∀ timed ∈ calls, ¬ timed.2.Lifts host) :
    (blocked.run hostStr calls).BlockedUntil (hostStr host) until_ := by
  induction calls generalizing blocked with
  | nil => exact held
  | cons timed later ih =>
    rw [forall_mem_cons] at early kept
    exact ih (held.perform printed early.1 kept.1) early.2 kept.2

/-- A blocked host is refused until the time is up exactly when the looked-up addresses are of the
blocked kind and the clock is below its last value. -/
theorem refused_iff {looked : NetworkAddress} (blockable : host.isBlockable = true)
    (same : host.isSameHost looked = true) (clock : now ≤ timeMax) :
    (∀ (state : BlockedHosts Text) (start seconds : Int) (addOnly : Bool)
        (calls : List (Int × HostCall)), 0 ≤ seconds →
      (state.blockHost hostStr start host seconds addOnly).1 = true →
      Timeline start calls now → (∀ timed ∈ calls, ¬ timed.2.Lifts host) → now < start + seconds →
      (((state.blockHost hostStr start host seconds addOnly).2.run hostStr
        calls).isRemoteHostAllowed hostStr now looked).1 ≠ none) ↔
      host.getTypeId = looked.getTypeId ∧ now < timeMax := by
  constructor
  · intro refused
    have first := refused empty now 1 true [] (by decide)
      (by simp [BlockedHosts.blockHost, blockable, empty])
      (by simp [Timeline]) (by simp) (by omega)
    rw [BlockedHosts.run, foldl_nil, blockHost_empty blockable] at first
    have text : hostStr looked = hostStr host := by
      by_contra different
      exact first (allowed_single (.inl different))
    have bare := (printed _ _).mp text
    refine ⟨?_, ?_⟩
    · rw [← NetworkAddress.getTypeId_withoutPort, ← bare, NetworkAddress.getTypeId_withoutPort]
    · by_contra last
      refine first (allowed_single (.inr ?_))
      rw [blockLimit, if_pos (by omega)]
      omega
  · rintro ⟨kind, below⟩ state start seconds addOnly calls - made timeline kept early
    have text : hostStr looked = hostStr host := (printed _ _).mpr
        (NetworkAddress.withoutPort_eq_of_isSameHost kind same).symm
    have beforeLimit : now < blockLimit start seconds := by
      unfold blockLimit
      split <;> omega
    have times : ∀ timed ∈ calls, timed.1 < blockLimit start seconds := by
      intro timed member
      have ordered := (pairwise_append.mp timeline).2.2 _
        (mem_cons_of_mem _ (mem_map_of_mem member)) now
        (mem_singleton_self now)
      omega
    have held := (blockHost_blockedUntil made).run printed times kept
    exact BlockedUntil.refused (text ▸ held) beforeLimit

end Printed

theorem ipv4_refused : (((empty.blockHost NetworkAddress.withoutPort 0 (.ipv4 0x04030201 18080) 100
      true).2.run NetworkAddress.withoutPort
        [(10, .isRemoteHostAllowed (.ipv4 0x08070605 0))]).isRemoteHostAllowed
          NetworkAddress.withoutPort 99 (.ipv4 0x04030201 0)).1 ≠ none := by
  have clock : (99 : Int) ≤ timeMax := by decide
  have blockable : (NetworkAddress.ipv4 0x04030201 18080).isBlockable = true := rfl
  have same : (NetworkAddress.ipv4 0x04030201 18080).isSameHost (.ipv4 0x04030201 0) = true := rfl
  have timeline : Timeline 0 [(10, .isRemoteHostAllowed (.ipv4 0x08070605 0))] 99 := by
    simp [Timeline]
  refine (refused_iff (fun _ _ => Iff.rfl) blockable same clock).mpr
    ⟨rfl, by decide⟩ empty 0 100 true _ (by decide) rfl timeline ?_ (by decide)
  rintro timed member lifts
  rw [mem_singleton.mp member] at lifts
  exact lifts

/-- The mapped address of a host that has been blocked is allowed. -/
theorem mapped_allowed : NetworkAddress.isSameHost (.ipv4 0x04030201 18080)
        (.ipv6 (Ipv6.mapped 0x04030201) 18080) = true ∧
      (empty.blockHost NetworkAddress.withoutPort 0 (.ipv4 0x04030201 18080) 100 true).1 = true ∧
      ((empty.blockHost NetworkAddress.withoutPort 0 (.ipv4 0x04030201 18080) 100
        true).2.isRemoteHostAllowed NetworkAddress.withoutPort 1
          (.ipv6 (Ipv6.mapped 0x04030201) 18080)).1 = none := by
  decide

end BlockedHosts

end LodeChain

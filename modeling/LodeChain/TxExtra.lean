import Mathlib.Data.List.Basic
import Mathlib.Tactic.Ring

/-!
# The extra field of a transaction

The extra field is a list of tagged fields written one after the other. Numbers in it are varints,
which are read back in every width.
-/

namespace LodeChain

namespace TxExtra

open List

abbrev Bytes := List UInt8

abbrev Pod := {bytes : Bytes // bytes.length = 32}

def writeVarint (value : Nat) : Bytes :=
  if value < 128 then [value.toUInt8]
  else (value % 128 + 128).toUInt8 :: writeVarint (value / 128)
termination_by value

/-! ## Numbers -/

variable {shift value : Nat} {bytes rest : Bytes}

theorem two_pow_split {bits : Nat} (more : shift + 7 < bits) :
    2 ^ (bits - shift) = 128 * 2 ^ (bits - (shift + 7)) := by
  rw [show bits - shift = (bits - (shift + 7)) + 7 by omega]
  ring

theorem writeVarint_of_lt (last : value < 128) : writeVarint value = [value.toUInt8] := by
  rw [writeVarint, if_pos last]

theorem writeVarint_of_le (more : 128 ≤ value) :
    writeVarint value = (value % 128 + 128).toUInt8 :: writeVarint (value / 128) := by
  rw [writeVarint, if_neg (not_lt.mpr more)]

theorem exists_lt_of_writeVarint (value : Nat) : ∃ byte ∈ writeVarint value, byte.toNat < 128 := by
  induction value using Nat.strongRecOn with
  | ind value ih =>
    by_cases last : value < 128
    · exact ⟨_, by rw [writeVarint_of_lt last]; exact mem_singleton_self _, by simp; omega⟩
    · obtain ⟨byte, mem, low⟩ := ih (value / 128) (by omega)
      rw [writeVarint_of_le (by omega)]
      exact ⟨byte, mem_cons_of_mem _ mem, low⟩

end TxExtra

namespace Varint

open TxExtra List Nat

inductive VarintError
  | overflow
  | represent
  deriving DecidableEq

/-- The loop of `read_varint`: the number of bytes read and the number. -/
def readVarintFrom (bits : Nat) : Nat → Nat → Nat → Bytes → Except VarintError (Nat × Nat)
  | _, read, write, [] => .ok (read, write)
  | shift, read, write, byte :: rest =>
    if bits ≤ shift + 7 ∧ 2 ^ (bits - shift) ≤ byte.toNat then .error .overflow
    else if byte = 0 ∧ shift ≠ 0 then .error .represent
    else
      let write := (write ||| (byte.toNat % 128) <<< shift) % 2 ^ bits
      if byte.toNat < 128 then .ok (read + 1, write)
      else readVarintFrom bits (shift + 7) (read + 1) write rest

def readVarint (bits : Nat) : Bytes → Except VarintError (Nat × Nat) :=
  readVarintFrom bits 0 0 0

variable {bits shift read write value : Nat} {bytes : Bytes}

theorem or_shiftLeft (below : write < 2 ^ shift) (digit : Nat) :
    write ||| digit <<< shift = write + 2 ^ shift * digit := by
  rw [Nat.or_comm, ← Nat.shiftLeft_add_eq_or_of_lt below, Nat.shiftLeft_eq]
  ring

/-- A byte that passes the tests fits behind what was written before. -/
theorem write_lt {byte : UInt8} (below : write < 2 ^ shift) (low : shift < bits)
    (fits : ¬(bits ≤ shift + 7 ∧ 2 ^ (bits - shift) ≤ byte.toNat)) :
    write + 2 ^ shift * (byte.toNat % 128) < 2 ^ min (shift + 7) bits := by
  have digit : byte.toNat % 128 < 2 ^ (min (shift + 7) bits - shift) := by
    by_cases high : bits ≤ shift + 7
    · rw [min_eq_right high]
      have := mod_le byte.toNat 128
      omega
    · rw [min_eq_left (by omega), Nat.add_sub_cancel_left]
      exact mod_lt _ (by decide)
  have split : 2 ^ min (shift + 7) bits = 2 ^ shift * 2 ^ (min (shift + 7) bits - shift) := by
    rw [← pow_add]
    congr 1
    omega
  have next : 2 ^ shift * (byte.toNat % 128 + 1) ≤ 2 ^ shift * 2 ^ (min (shift + 7) bits - shift) :=
    mul_le_mul_left _ digit
  rw [split]
  rw [mul_add] at next
  omega

theorem readVarintFrom_cons {byte : UInt8} (rest : Bytes) (below : write < 2 ^ shift)
    (low : shift < bits) (fits : ¬(bits ≤ shift + 7 ∧ 2 ^ (bits - shift) ≤ byte.toNat))
    (canonical : ¬(byte = 0 ∧ shift ≠ 0)) :
    readVarintFrom bits shift read write (byte :: rest) =
      if byte.toNat < 128 then .ok (read + 1, write + 2 ^ shift * byte.toNat)
      else readVarintFrom bits (shift + 7) (read + 1)
        (write + 2 ^ shift * (byte.toNat % 128)) rest := by
  have small := (write_lt below low fits).trans_le
    (Nat.pow_le_pow_right (by decide) (min_le_right _ _))
  rw [readVarintFrom, if_neg fits, if_neg canonical]
  simp only [or_shiftLeft below, mod_eq_of_lt small]
  split_ifs with last
  · rw [mod_eq_of_lt last]
  · rfl

theorem lt_bits_of_fits {byte : UInt8} (more : ¬byte.toNat < 128)
    (fits : ¬(bits ≤ shift + 7 ∧ 2 ^ (bits - shift) ≤ byte.toNat)) : shift + 7 < bits := by
  by_contra high
  have : 2 ^ (bits - shift) ≤ 2 ^ 7 := Nat.pow_le_pow_right (by decide) (by omega)
  omega

theorem readVarintFrom_writeVarint (rest : Bytes) (below : write < 2 ^ shift) (low : shift < bits)
    (small : value < 2 ^ (bits - shift)) (canonical : shift ≠ 0 → value ≠ 0) :
    readVarintFrom bits shift read write (writeVarint value ++ rest) =
      .ok (read + (writeVarint value).length, write + 2 ^ shift * value) := by
  induction value using Nat.strongRecOn generalizing shift read write with
  | ind value ih =>
    rw [writeVarint]
    split_ifs with last
    · have byte : value.toUInt8.toNat = value := by simp; omega
      have ne : ¬(value.toUInt8 = 0 ∧ shift ≠ 0) := by
        rintro ⟨zero, shifted⟩
        rw [zero] at byte
        exact canonical shifted byte.symm
      rw [singleton_append, readVarintFrom_cons rest below low (by omega) ne, byte, if_pos last]
      rfl
    · have byte : (value % 128 + 128).toUInt8.toNat = value % 128 + 128 := by simp; omega
      have ne : ¬((value % 128 + 128).toUInt8 = 0 ∧ shift ≠ 0) := by
        rintro ⟨zero, -⟩
        rw [zero] at byte
        simp at byte
      have more : shift + 7 < bits := by
        by_contra high
        have : 2 ^ (bits - shift) ≤ 2 ^ 7 := Nat.pow_le_pow_right (by decide) (by omega)
        omega
      have split := two_pow_split more
      have digit := @write_lt bits shift write (value % 128 + 128).toUInt8 below low (by omega)
      rw [byte, min_eq_left more.le] at digit
      rw [cons_append, readVarintFrom_cons _ below low (by omega) ne, byte, if_neg (by omega),
        ih _ (by omega) digit more (by omega) (by omega), length_cons, add_assoc write,
        add_mod_right, mod_mod, pow_add, mul_assoc, ← mul_add,
        show value % 128 + 2 ^ 7 * (value / 128) = value by omega, add_right_comm, add_assoc]

theorem eq_writeVarint_of_readVarintFrom {stop result : Nat} (below : write < 2 ^ shift)
    (low : shift < bits) (done : readVarintFrom bits shift read write bytes = .ok (stop, result))
    (ends : ∃ byte ∈ bytes, byte.toNat < 128) :
    ∃ count value, stop = read + count ∧ bytes.take count = writeVarint value ∧
      result = write + 2 ^ shift * value ∧ (shift ≠ 0 → value ≠ 0) := by
  induction bytes generalizing shift read write with
  | nil => simp at ends
  | cons byte bytes ih =>
    by_cases over_ : bits ≤ shift + 7 ∧ 2 ^ (bits - shift) ≤ byte.toNat
    · rw [readVarintFrom, if_pos over_] at done
      cases done
    by_cases zero : byte = 0 ∧ shift ≠ 0
    · rw [readVarintFrom, if_neg over_, if_pos zero] at done
      cases done
    rw [readVarintFrom_cons bytes below low over_ zero] at done
    split_ifs at done with last
    · cases done
      refine ⟨1, byte.toNat, rfl, by simp [writeVarint_of_lt last], rfl, fun shifted empty => ?_⟩
      exact zero ⟨UInt8.toNat_inj.mp empty, shifted⟩
    · have digit := write_lt below low over_
      have more := lt_bits_of_fits last over_
      rw [min_eq_left more.le] at digit
      rw [exists_mem_cons_iff] at ends
      obtain ⟨count, later, rfl, taken, rfl, canonical⟩ :=
        ih digit more done (ends.resolve_left last)
      have ne := canonical (by omega)
      have small := byte.toNat_lt
      refine ⟨count + 1, byte.toNat % 128 + 128 * later, by omega, ?_, by ring, by omega⟩
      rw [writeVarint_of_le (by omega), take_succ_cons, taken,
        show (byte.toNat % 128 + 128 * later) % 128 + 128 = byte.toNat by omega,
        show (byte.toNat % 128 + 128 * later) / 128 = later by omega]
      simp

theorem readVarintFrom_lt {stop result : Nat} (below : write < 2 ^ bits)
    (done : readVarintFrom bits shift read write bytes = .ok (stop, result)) :
    result < 2 ^ bits := by
  induction bytes generalizing shift read write with
  | nil =>
    cases done
    exact below
  | cons byte bytes ih =>
    have small := mod_lt (write ||| (byte.toNat % 128) <<< shift) (Nat.two_pow_pos bits)
    rw [readVarintFrom] at done
    split_ifs at done
    · cases done
      exact small
    · exact ih small done

theorem readVarint_append (rest : Bytes) (low : 0 < bits) (small : value < 2 ^ bits) :
    readVarint bits (writeVarint value ++ rest) = .ok ((writeVarint value).length, value) := by
  have read := @readVarintFrom_writeVarint bits 0 0 0 value rest one_pos low small (by simp)
  simpa [readVarint] using read

theorem eq_writeVarint_of_readVarint {count : Nat} (low : 0 < bits)
    (read : readVarint bits bytes = .ok (count, value)) (ends : ∃ byte ∈ bytes, byte.toNat < 128) :
    bytes.take count = writeVarint value := by
  obtain ⟨taken, number, rfl, written, rfl, -⟩ :=
    eq_writeVarint_of_readVarintFrom one_pos low read ends
  simpa using written

/-- Numbers are read back, and what is read is a number as written unless the input ends inside of
it. -/
theorem readVarint_writeVarint_iff {bits : Nat} (width : bits ∈ [8, 16, 32, 64]) :
    (∀ value < 2 ^ bits, ∀ rest, readVarint bits (writeVarint value ++ rest) =
      .ok ((writeVarint value).length, value)) ∧
    ∀ bytes count value, readVarint bits bytes = .ok (count, value) →
      (bytes.take count = writeVarint value ↔ ∃ byte ∈ bytes, byte.toNat < 128) := by
  have low : 0 < bits := by
    revert bits
    decide
  refine ⟨fun value small rest => readVarint_append rest low small, ?_⟩
  intro bytes count value read
  constructor
  · intro written
    obtain ⟨byte, mem, last⟩ := exists_lt_of_writeVarint value
    exact ⟨byte, mem_of_mem_take (written ▸ mem), last⟩
  · intro ends
    exact eq_writeVarint_of_readVarint low read ends

theorem readVarint_writeVarint_byte : readVarint 8 (writeVarint 200 ++ [7]) = .ok (2, 200) := by
  have read := (@readVarint_writeVarint_iff 8 (by decide)).1 200 (by decide) [7]
  rw [read, writeVarint, if_neg (by decide), writeVarint, if_pos (by decide)]
  rfl

theorem readVarint_cutOff : readVarint 64 [128] = .ok (1, 0) ∧ [128] ≠ writeVarint 0 := by
  rw [writeVarint]
  decide

end Varint

namespace TxExtra

open List

def readVarint (bytes : Bytes) : Option (Nat × Bytes) :=
  match Varint.readVarint 64 bytes with
  | .ok (count, value) => some (value, bytes.drop count)
  | .error _ => none

def readPod (bytes : Bytes) : Option (Pod × Bytes) :=
  if enough : 32 ≤ bytes.length then some (⟨bytes.take 32, by simp [enough]⟩, bytes.drop 32)
  else none

def readString (bytes : Bytes) : Option (Bytes × Bytes) :=
  (readVarint bytes).bind fun read => if read.2.length < read.1 then none
    else some (read.2.take read.1, read.2.drop read.1)

def writeString (string : Bytes) : Bytes :=
  writeVarint string.length ++ string

def readPods : Nat → Bytes → Option (List Pod × Bytes)
  | 0, bytes => some ([], bytes)
  | count + 1, bytes =>
    (readPod bytes).bind fun read => (readPods count read.2).map fun later =>
        (read.1 :: later.1, later.2)

def readContainer (bytes : Bytes) : Option (List Pod × Bytes) :=
  (readVarint bytes).bind fun read =>
    if read.2.length < read.1 then none else readPods read.1 read.2

def writeContainer (data : List Pod) : Bytes :=
  writeVarint data.length ++ data.flatMap Subtype.val

inductive Field where
  | padding (size : Nat)
  | pubKey (pubKey : Pod)
  | nonce (nonce : Bytes)
  | mergeMiningTag (depth : Nat) (merkleRoot : Pod)
  | additionalPubKeys (data : List Pod)
  | mysteriousMinergate (data : Bytes)
  deriving DecidableEq

def txExtraPaddingMaxCount : Nat := 255
def txExtraNonceMaxCount : Nat := 255

def readPadding : Nat → Bytes → Option (Field × Bytes)
  | size, [] => if size ≤ txExtraPaddingMaxCount then some (.padding size, []) else none
  | size, byte :: rest =>
    if txExtraPaddingMaxCount < size ∨ byte ≠ 0 then none
    else readPadding (size + 1) rest

/-- A string that holds the depth and the root and nothing else. -/
def readMergeMiningTag (bytes : Bytes) : Option (Field × Bytes) :=
  (readString bytes).bind fun read => (readVarint read.1).bind fun depth =>
      (readPod depth.2).bind fun root => if root.2 = [] then
          some (.mergeMiningTag depth.1 root.1, read.2)
        else none

def readField : Bytes → Option (Field × Bytes)
  | [] => none
  | tag :: bytes =>
    if tag = 0x00 then readPadding 1 bytes
    else if tag = 0x01 then (readPod bytes).map fun read => (.pubKey read.1, read.2)
    else if tag = 0x02 then
      (readString bytes).bind fun read => if txExtraNonceMaxCount < read.1.length then none
        else some (.nonce read.1, read.2)
    else if tag = 0x03 then readMergeMiningTag bytes
    else if tag = 0x04 then
      (readContainer bytes).map fun read => (.additionalPubKeys read.1, read.2)
    else if tag = 0xde then (readString bytes).map fun read => (.mysteriousMinergate read.1, read.2)
    else none

def writeField : Field → Bytes
  | .padding size => 0x00 :: List.replicate (size - 1) 0
  | .pubKey pubKey => 0x01 :: pubKey.val
  | .nonce nonce => 0x02 :: writeString nonce
  | .mergeMiningTag depth merkleRoot => 0x03 :: writeString (writeVarint depth ++ merkleRoot.val)
  | .additionalPubKeys data => 0x04 :: writeContainer data
  | .mysteriousMinergate data => 0xde :: writeString data

/-- Each field takes at least its tag, so the number of bytes bounds the number of rounds. -/
def readFields : Nat → Bytes → Option (List Field)
  | 0, _ => none
  | rounds + 1, bytes =>
    (readField bytes).bind fun read => if read.2 = [] then some [read.1]
      else (readFields rounds read.2).map (read.1 :: ·)

def parseTxExtra (txExtra : Bytes) : Option (List Field) :=
  if txExtra = [] then some [] else readFields txExtra.length txExtra

inductive FieldType where
  | padding
  | pubKey
  | nonce
  | mergeMiningTag
  | additionalPubKeys
  | mysteriousMinergate
  deriving DecidableEq, Repr

def Field.type : Field → FieldType
  | .padding _ => .padding
  | .pubKey _ => .pubKey
  | .nonce _ => .nonce
  | .mergeMiningTag _ _ => .mergeMiningTag
  | .additionalPubKeys _ => .additionalPubKeys
  | .mysteriousMinergate _ => .mysteriousMinergate

/-- Whether the call succeeds, and the extra field afterwards. -/
def removeFieldFromTxExtra (txExtra : Bytes) (type : FieldType) : Bool × Bytes :=
  if txExtra = [] then (true, [])
  else
    match readFields txExtra.length txExtra with
    | none => (false, txExtra)
    | some fields => (true, (fields.filter (·.type ≠ type)).flatMap writeField)

/-- The extra field without the fields of a type, where the call succeeds. -/
def withoutField (txExtra : Bytes) (type : FieldType) : Option Bytes :=
  let removed := removeFieldFromTxExtra txExtra type
  if removed.1 then some removed.2 else none

def Field.isMergeMiningTag : Field → Bool
  | .mergeMiningTag _ _ => true
  | _ => false

def tagBytes (mmMerkleRoot : Pod) (mmMerkleTreeDepth : Nat) : Bytes :=
  0x03 :: 33 :: mmMerkleTreeDepth.toUInt8 :: mmMerkleRoot.val

def addMmMerkleRootToTxExtra (txExtra : Bytes) (mmMerkleRoot : Pod)
    (mmMerkleTreeDepth : Nat) : Option Bytes :=
  if mmMerkleTreeDepth < 32 then some (txExtra ++ tagBytes mmMerkleRoot mmMerkleTreeDepth)
  else none

def findMergeMiningTag (txExtra : Bytes) : Option (Nat × Pod) :=
  (parseTxExtra txExtra).bind fun fields => fields.findSome? fun field => match field with
      | .mergeMiningTag depth merkleRoot => some (depth, merkleRoot)
      | _ => none

variable {value rounds depth : Nat} {bytes rest : Bytes}

theorem readVarint_eq_some_iff : readVarint bytes = some (value, rest) ↔
    ∃ count, Varint.readVarint 64 bytes = .ok (count, value) ∧ bytes.drop count = rest := by
  unfold readVarint
  split
  · rename_i read
    simp [read]
  · rename_i failed
    simp [failed]

theorem readVarint_lt (read : readVarint bytes = some (value, rest)) : value < 2 ^ 64 := by
  obtain ⟨count, number, -⟩ := readVarint_eq_some_iff.mp read
  exact Varint.readVarintFrom_lt (Nat.two_pow_pos 64) number

theorem readVarint_writeVarint (rest : Bytes) (small : value < 2 ^ 64) :
    readVarint (writeVarint value ++ rest) = some (value, rest) :=
  readVarint_eq_some_iff.mpr ⟨_, Varint.readVarint_append rest (by decide) small, drop_left⟩

theorem eq_writeVarint_of_readVarint (read : readVarint bytes = some (value, rest))
    (ends : ∃ byte ∈ bytes, byte.toNat < 128) : bytes = writeVarint value ++ rest := by
  obtain ⟨count, number, rfl⟩ := readVarint_eq_some_iff.mp read
  rw [← Varint.eq_writeVarint_of_readVarint (by decide) number ends, take_append_drop]

/-! ## Fields -/

theorem readPod_append (pod : Pod) (rest : Bytes) :
    readPod (pod.val ++ rest) = some (pod, rest) := by
  have long : 32 ≤ (pod.val ++ rest).length := by simp [pod.property]
  rw [readPod, dif_pos long]
  congr 1
  ext1
  · exact Subtype.ext (take_left' pod.property)
  · exact drop_left' pod.property

variable {string : Bytes}

theorem readString_writeString (short : string.length < 2 ^ 64) (rest : Bytes) :
    readString (writeString string ++ rest) = some (string, rest) := by
  have number := readVarint_writeVarint (string ++ rest) short
  have enough : ¬(string ++ rest).length < string.length := by simp
  rw [readString, writeString, append_assoc, number, Option.bind_some,
    if_neg enough, take_left, drop_left]

theorem readPods_flatMap (data : List Pod) (rest : Bytes) :
    readPods data.length (data.flatMap Subtype.val ++ rest) = some (data, rest) := by
  induction data with
  | nil => rfl
  | cons pod data ih =>
    rw [flatMap_cons, append_assoc, length_cons, readPods,
      readPod_append, Option.bind_some, ih, Option.map_some]

theorem length_le_flatMap (data : List Pod) : data.length ≤ (data.flatMap Subtype.val).length := by
  induction data with
  | nil => simp
  | cons pod data ih =>
    rw [flatMap_cons, length_append, length_cons]
    omega

variable {data : List Pod}

theorem readContainer_writeContainer (short : data.length < 2 ^ 64) (rest : Bytes) :
    readContainer (writeContainer data ++ rest) = some (data, rest) := by
  have number := readVarint_writeVarint (data.flatMap Subtype.val ++ rest) short
  have enough : ¬(data.flatMap Subtype.val ++ rest).length < data.length := by
    have := length_le_flatMap data
    rw [length_append]
    omega
  rw [readContainer, writeContainer, append_assoc, number, Option.bind_some,
    if_neg enough, readPods_flatMap]

def Field.Fits : Field → Prop
  | .padding size => 1 ≤ size
  | .pubKey _ => True
  | .nonce bytes => bytes.length ≤ txExtraNonceMaxCount
  | .mergeMiningTag _ _ => True
  | .additionalPubKeys data => data.length < 2 ^ 64
  | .mysteriousMinergate data => data.length < 2 ^ 64

def Field.isPadding : Field → Bool
  | .padding _ => true
  | _ => false

variable {field : Field}

theorem readPadding_eq {size : Nat} (read : readPadding size bytes = some (field, rest)) :
    ∃ last, size ≤ last ∧ field = .padding last ∧ rest = [] := by
  induction bytes generalizing size with
  | nil =>
    rw [readPadding] at read
    split_ifs at read with bounded
    simp only [Option.some.injEq, Prod.mk.injEq] at read
    exact ⟨size, le_rfl, read.1.symm, read.2.symm⟩
  | cons byte bytes ih =>
    rw [readPadding] at read
    split_ifs at read with stops
    obtain ⟨last, above, shape⟩ := ih read
    exact ⟨last, by omega, shape⟩

theorem readPadding_of_tag (size zeros : Nat) (rest : Bytes) :
    readPadding size (List.replicate zeros 0 ++ 0x03 :: rest) = none := by
  induction zeros generalizing size with
  | zero => simp [readPadding]
  | succ zeros ih =>
    rw [replicate_succ, cons_append, readPadding]
    split_ifs with stops
    · rfl
    · exact ih _

theorem readString_length (read : readString bytes = some (string, rest)) :
    string.length < 2 ^ 64 := by
  obtain ⟨⟨size, after⟩, number, shape⟩ := Option.bind_eq_some_iff.mp read
  have bound := readVarint_lt number
  split_ifs at shape with long
  simp at shape
  rw [← shape.1, List.length_take]
  omega

inductive ReadsField (bytes rest : Bytes) : Field → Prop
  | padding {found : Field} (read : readPadding 1 bytes = some (found, rest)) :
      ReadsField bytes rest found
  | pubKey {pubKey : Pod} (read : readPod bytes = some (pubKey, rest)) :
      ReadsField bytes rest (.pubKey pubKey)
  | nonce {nonce : Bytes} (read : readString bytes = some (nonce, rest))
      (short : nonce.length ≤ txExtraNonceMaxCount) : ReadsField bytes rest (.nonce nonce)
  | mergeMiningTag {tag : Bytes} {number : Nat × Bytes} {merkleRoot : Pod}
      (read : readString bytes = some (tag, rest)) (depth : readVarint tag = some number) :
      ReadsField bytes rest (.mergeMiningTag number.1 merkleRoot)
  | additionalPubKeys {keys : List Pod} (read : readContainer bytes = some (keys, rest)) :
      ReadsField bytes rest (.additionalPubKeys keys)
  | mysteriousMinergate {text : Bytes} (read : readString bytes = some (text, rest)) :
      ReadsField bytes rest (.mysteriousMinergate text)

theorem readsField_of_readField (read : readField bytes = some (field, rest)) :
    ∃ tag after, bytes = tag :: after ∧ ReadsField after rest field := by
  cases bytes with
  | nil => simp [readField] at read
  | cons tag bytes =>
    refine ⟨tag, bytes, rfl, ?_⟩
    rw [readField] at read
    split_ifs at read with padding pubKey nonce mergeMining additional minergate
    · exact .padding read
    · obtain ⟨pod, first, shape⟩ := Option.map_eq_some_iff.mp read
      cases shape
      exact .pubKey first
    · obtain ⟨string, first, shape⟩ := Option.bind_eq_some_iff.mp read
      split_ifs at shape with long
      cases shape
      exact .nonce first (not_lt.mp long)
    · obtain ⟨string, first, later⟩ := Option.bind_eq_some_iff.mp read
      obtain ⟨depth, number, latest⟩ := Option.bind_eq_some_iff.mp later
      obtain ⟨root, -, shape⟩ := Option.bind_eq_some_iff.mp latest
      split_ifs at shape with whole
      cases shape
      exact .mergeMiningTag first number
    · obtain ⟨data, container, shape⟩ := Option.map_eq_some_iff.mp read
      cases shape
      exact .additionalPubKeys container
    · obtain ⟨data, first, shape⟩ := Option.map_eq_some_iff.mp read
      cases shape
      exact .mysteriousMinergate first

theorem readPods_length {count : Nat} (read : readPods count bytes = some (data, rest)) :
    data.length = count := by
  induction count generalizing bytes data with
  | zero =>
    simp only [readPods, Option.some.injEq, Prod.mk.injEq] at read
    rw [← read.1, length_nil]
  | succ count ih =>
    obtain ⟨first, -, later⟩ := Option.bind_eq_some_iff.mp read
    obtain ⟨⟨others, end_⟩, readOthers, shape⟩ := Option.map_eq_some_iff.mp later
    cases shape
    rw [length_cons, ih readOthers]

theorem readContainer_length (read : readContainer bytes = some (data, rest)) :
    data.length < 2 ^ 64 := by
  obtain ⟨⟨count, after⟩, number, shape⟩ := Option.bind_eq_some_iff.mp read
  have bound := readVarint_lt number
  split_ifs at shape with long
  rw [readPods_length shape]
  exact bound

theorem readField_fits (read : readField bytes = some (field, rest)) :
    field.Fits ∧ (field.isPadding → rest = []) := by
  obtain ⟨tag, after, rfl, reads⟩ := readsField_of_readField read
  cases reads with
  | padding found =>
    obtain ⟨last, pos, rfl, rfl⟩ := readPadding_eq found
    exact ⟨pos, fun _ => rfl⟩
  | pubKey | mergeMiningTag => exact ⟨trivial, fun no => by cases no⟩
  | nonce _ short => exact ⟨short, fun no => by cases no⟩
  | additionalPubKeys found => exact ⟨readContainer_length found, fun no => by cases no⟩
  | mysteriousMinergate found => exact ⟨readString_length found, fun no => by cases no⟩

theorem readField_writeField (fits : field.Fits) (notPadding : field.isPadding = false)
    (notTag : field.isMergeMiningTag = false) (rest : Bytes) :
    readField (writeField field ++ rest) = some (field, rest) := by
  cases field with
  | padding size => cases notPadding
  | pubKey pubKey => simp [writeField, readField, readPod_append]
  | nonce nonce =>
    have short : nonce.length ≤ 255 := fits
    have string := readString_writeString (show nonce.length < 2 ^ 64 by omega) rest
    have kept : ¬txExtraNonceMaxCount < nonce.length := by
      rw [txExtraNonceMaxCount]
      omega
    simp [writeField, readField, string, kept]
  | mergeMiningTag depth merkleRoot => cases notTag
  | additionalPubKeys data => simp [writeField, readField, readContainer_writeContainer fits]
  | mysteriousMinergate data => simp [writeField, readField, readString_writeString fits]

/-! ## Lists of fields -/

theorem writeField_length_pos (field : Field) : 0 < (writeField field).length := by
  cases field <;> simp [writeField]

theorem length_le_writeFields (fields : List Field) :
    fields.length ≤ (fields.flatMap writeField).length := by
  induction fields with
  | nil => simp
  | cons field fields ih =>
    have := writeField_length_pos field
    rw [flatMap_cons, length_append, length_cons]
    omega

variable {fields : List Field}

theorem readFields_fits (read : readFields rounds bytes = some fields) :
    ∃ front last, fields = front ++ [last] ∧ last.Fits ∧
      ∀ field ∈ front, field.Fits ∧ field.isPadding = false := by
  induction rounds generalizing bytes fields with
  | zero => cases read
  | succ rounds ih =>
    obtain ⟨⟨field, rest⟩, readFirst, later⟩ := Option.bind_eq_some_iff.mp read
    obtain ⟨fits, paddingLast⟩ := readField_fits readFirst
    split_ifs at later with ended
    · cases later
      exact ⟨[], field, rfl, fits, by simp⟩
    · obtain ⟨others, readOthers, rfl⟩ := Option.map_eq_some_iff.mp later
      obtain ⟨front, last, rfl, lastFits, frontFits⟩ := ih readOthers
      have notPadding : field.isPadding = false := by
        by_contra padding
        exact ended (paddingLast (by simpa using padding))
      refine ⟨field :: front, last, rfl, lastFits, ?_⟩
      intro other mem
      rcases mem_cons.mp mem with rfl | inFront
      · exact ⟨fits, notPadding⟩
      · exact frontFits other inFront

theorem readFields_append (rounds : Nat) (more : rest ≠ [])
    (plain : ∀ field ∈ fields, field.Fits ∧ field.isPadding = false ∧
      field.isMergeMiningTag = false) :
    readFields (fields.length + rounds) (fields.flatMap writeField ++ rest) =
      (readFields rounds rest).map (fields ++ ·) := by
  induction fields with
  | nil => simp
  | cons field fields ih =>
    obtain ⟨fits, notPadding, notTag⟩ := plain field mem_cons_self
    have others := ih fun other mem => plain other (mem_cons_of_mem _ mem)
    have unfinished : fields.flatMap writeField ++ rest ≠ [] := by simp [more]
    rw [length_cons, add_right_comm, readFields, flatMap_cons,
      append_assoc, readField_writeField fits notPadding notTag,
      Option.bind_some, if_neg unfinished, others, Option.map_map]
    rfl

theorem readField_tagBytes (root : Pod) (low : depth < 32) :
    readField (tagBytes root depth) = some (.mergeMiningTag depth root, []) := by
  have byte : depth.toUInt8.toNat = depth := by simp; omega
  have size : readVarint (33 :: depth.toUInt8 :: root.val) =
      some (33, depth.toUInt8 :: root.val) := by
    rfl
  have string : readString (33 :: depth.toUInt8 :: root.val) =
      some (depth.toUInt8 :: root.val, []) := by
    have long : (depth.toUInt8 :: root.val).length = 33 := by simp [root.property]
    rw [readString, size, Option.bind_some, if_neg (by rw [long]; omega), ← long,
      take_length, drop_length]
  have inner : readVarint (depth.toUInt8 :: root.val) = some (depth, root.val) := by
    simpa [writeVarint_of_lt (show depth < 128 by omega)] using
      readVarint_writeVarint root.val (show depth < 2 ^ 64 by omega)
  have pod : readPod root.val = some (root, []) := by simpa using readPod_append root []
  simp [tagBytes, readField, readMergeMiningTag, string, inner, pod]

theorem readFields_tagBytes (root : Pod) (low : depth < 32) (some_ : 0 < rounds) :
    readFields rounds (tagBytes root depth) = some [.mergeMiningTag depth root] := by
  obtain ⟨fewer, rfl⟩ := Nat.exists_eq_succ_of_ne_zero some_.ne'
  rw [readFields, readField_tagBytes root low, Option.bind_some, if_pos rfl]

theorem readFields_padding_tagBytes (size rounds : Nat) (root : Pod) (depth : Nat) :
    readFields rounds (writeField (.padding size) ++ tagBytes root depth) = none := by
  cases rounds with
  | zero => rfl
  | succ rounds =>
    have unread : readField (writeField (.padding size) ++ tagBytes root depth) =
        none := by
      exact readPadding_of_tag _ _ _
    rw [readFields, unread, Option.bind_none]

def hasPadding (txExtra : Bytes) : Bool :=
  match parseTxExtra txExtra with
  | some fields => fields.any Field.isPadding
  | none => false

theorem parseTxExtra_append_tagBytes (tail : Bytes) (root : Pod) (depth : Nat)
    (plain : ∀ field ∈ fields, field.Fits ∧ field.isPadding = false ∧
      field.isMergeMiningTag = false) : ∃ rounds, 0 < rounds ∧
      parseTxExtra (fields.flatMap writeField ++ (tail ++ tagBytes root depth)) =
        (readFields rounds (tail ++ tagBytes root depth)).map (fields ++ ·) := by
  have more : tail ++ tagBytes root depth ≠ [] := by simp [tagBytes]
  have whole : fields.flatMap writeField ++ (tail ++ tagBytes root depth) ≠ [] := by simp [tagBytes]
  have enough := length_le_writeFields fields
  have pos := length_pos_iff.mpr more
  refine ⟨(fields.flatMap writeField).length - fields.length +
    (tail ++ tagBytes root depth).length, by omega, ?_⟩
  rw [parseTxExtra, if_neg whole, ← readFields_append _ more plain, length_append]
  congr 1
  omega

theorem findSome?_filter_tag (fields : List Field) : (fields.filter (!·.isMergeMiningTag)).findSome?
      (fun field => match field with
        | .mergeMiningTag depth merkleRoot => some (depth, merkleRoot)
        | _ => none) = none := by
  rw [findSome?_eq_none_iff]
  intro field mem
  have notTag := (mem_filter.mp mem).2
  cases field <;> first | rfl | cases notTag

theorem withoutField_eq (txExtra : Bytes) (type : FieldType) :
    withoutField txExtra type = (parseTxExtra txExtra).map fun fields =>
      (fields.filter (·.type ≠ type)).flatMap writeField := by
  unfold withoutField removeFieldFromTxExtra parseTxExtra
  split_ifs
  · rfl
  · cases readFields txExtra.length txExtra <;> rfl

theorem findMergeMiningTag_append {txExtra cleared : Bytes} (root : Pod) (low : depth < 32)
    (removed : withoutField txExtra .mergeMiningTag = some cleared) :
    findMergeMiningTag (cleared ++ tagBytes root depth) =
      if hasPadding txExtra then none else some (depth, root) := by
  rw [withoutField_eq] at removed
  obtain ⟨fields, read, rfl⟩ := Option.map_eq_some_iff.mp removed
  have tags : fields.filter (·.type ≠ .mergeMiningTag) = fields.filter (!·.isMergeMiningTag) :=
    filter_congr fun field _ => by cases field <;> rfl
  rw [tags]
  rw [parseTxExtra] at read
  split_ifs at read with empty
  · cases read
    subst empty
    have parsed : parseTxExtra (tagBytes root depth) = some [.mergeMiningTag depth root] := by
      exact readFields_tagBytes root low (by simp [tagBytes])
    rw [filter_nil, flatMap_nil, nil_append, findMergeMiningTag, parsed]
    rfl
  · obtain ⟨front, last, rfl, lastFits, frontFits⟩ := readFields_fits read
    have parsedBefore : parseTxExtra txExtra = some (front ++ [last]) := by
      rw [parseTxExtra, if_neg empty, read]
    have frontPlain : ∀ field ∈ front.filter (!·.isMergeMiningTag), field.Fits ∧
        field.isPadding = false ∧ field.isMergeMiningTag = false := by
      intro field mem
      obtain ⟨inFront, notTag⟩ := mem_filter.mp mem
      exact ⟨(frontFits field inFront).1, (frontFits field inFront).2, by simpa using notTag⟩
    have frontPadding : front.any Field.isPadding = false := by
      rw [any_eq_false]
      intro field mem
      simp [(frontFits field mem).2]
    cases isLast : last.isPadding with
    | true =>
      obtain ⟨size, rfl⟩ : ∃ size, last = .padding size := by
        cases last <;> first | exact ⟨_, rfl⟩ | cases isLast
      obtain ⟨rounds, -, parsed⟩ := parseTxExtra_append_tagBytes
        (writeField (.padding size)) root depth frontPlain
      rw [readFields_padding_tagBytes] at parsed
      simp_all [findMergeMiningTag, hasPadding, Field.isMergeMiningTag]
    | false =>
      have plain : ∀ field ∈ (front ++ [last]).filter (!·.isMergeMiningTag),
          field.Fits ∧ field.isPadding = false ∧ field.isMergeMiningTag = false := by
        intro field mem
        obtain ⟨lt, notTag⟩ := mem_filter.mp mem
        rcases mem_append.mp lt with inFront | isEnd
        · exact frontPlain field (mem_filter.mpr ⟨inFront, notTag⟩)
        · rw [mem_singleton.mp isEnd] at notTag ⊢
          exact ⟨lastFits, isLast, by simpa using notTag⟩
      obtain ⟨rounds, pos, parsed⟩ := parseTxExtra_append_tagBytes [] root depth plain
      have noTag := findSome?_filter_tag (front ++ [last])
      rw [nil_append, readFields_tagBytes root low pos] at parsed
      rw [findMergeMiningTag, parsed, hasPadding, parsedBefore, Option.map_some,
        Option.bind_some, findSome?_append, noTag]
      simp [frontPadding, isLast]

end TxExtra

end LodeChain

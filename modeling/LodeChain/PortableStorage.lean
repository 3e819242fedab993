import LodeChain.WrappedArithmetic
import Mathlib.Data.List.TakeWhile

/-!
# Portable storage

`portable_storage` writes a tree of named entries and reads it back. Before it reads an array it
asks for two unread bytes for each string, but an empty string takes one.
-/

namespace LodeChain

namespace WipeableString

open List

def hex : List UInt8 :=
  [48, 49, 50, 51, 52, 53, 54, 55, 56, 57, 97, 98, 99, 100, 101, 102]

def atolower (c : UInt8) : UInt8 :=
  if 65 ≤ c ∧ c ≤ 90 then c ||| 32 else c

/-- The position in a C string, whose terminator is searched as well. -/
def strchr (text : List UInt8) (c : UInt8) : Option Nat :=
  (text ++ [0]).idxOf? c

/-- The loop of `parse_hexstr`. -/
def parseHexPairs : List UInt8 → Option (List UInt8)
  | [] | [_] => some []
  | high :: low :: rest => do
      let ptr0 ← strchr hex (atolower high)
      let ptr1 ← strchr hex (atolower low)
      let res ← parseHexPairs rest
      return UInt8.ofNat (ptr0 <<< 4 ||| ptr1) :: res

def parseHexstr (str : List UInt8) : Option (List UInt8) :=
  if str.length % 2 ≠ 0 then none else parseHexPairs str

def IsHexDigit (c : UInt8) : Prop :=
  atolower c ∈ hex

instance : DecidablePred IsHexDigit := fun _ => inferInstanceAs (Decidable (_ ∈ _))

/-- Two digits a byte, the high half first. -/
def hexRepresentation (bytes : List UInt8) : List UInt8 :=
  bytes.flatMap fun byte => [hex.getD (byte.toNat / 16) 0, hex.getD (byte.toNat % 16) 0]

def ParsesHex (str : List UInt8) : Prop :=
  ((parseHexstr str).isSome = true ↔ str.length % 2 = 0 ∧ ∀ c ∈ str, IsHexDigit c) ∧
    ∀ bytes, parseHexstr str = some bytes → str.map atolower = hexRepresentation bytes

theorem atolower_eq_zero_iff (c : UInt8) : atolower c = 0 ↔ c = 0 := by
  unfold atolower
  split
  · rename_i upper
    constructor
    · intro zero
      simp at zero
    · rintro rfl
      simp at upper
  · rfl

theorem strchr_hex_isSome (c : UInt8) :
    (strchr hex (atolower c)).isSome = true ↔ IsHexDigit c ∨ c = 0 := by
  rw [strchr, isSome_idxOf?, mem_append, mem_singleton, atolower_eq_zero_iff]
  rfl

theorem strchr_hex_eq_some {c : UInt8} {index : Nat} (ne : c ≠ 0)
    (found : strchr hex c = some index) : index < 16 ∧ hex.getD index 0 = c := by
  obtain ⟨lt, here, -⟩ := idxOf?_eq_some_iff.mp found
  have short : index < hex.length := by
    by_contra beyond
    rw [getElem_append_right (by omega), getElem_singleton] at here
    exact ne here.symm
  rw [getElem_append_left short] at here
  exact ⟨short, by simp [getD, getElem?_eq_getElem short, here]⟩

theorem toNat_ofNat_halves {high low : Nat} (small : high < 16) (below : low < 16) :
    (UInt8.ofNat (high <<< 4 ||| low)).toNat = 16 * high + low := by
  rw [← Nat.shiftLeft_add_eq_or_of_lt (b := low) (i := 4) below]
  simp
  omega

theorem parseHexPairs_isSome {str : List UInt8} (even : str.length % 2 = 0) :
    (parseHexPairs str).isSome = true ↔ ∀ c ∈ str, IsHexDigit c ∨ c = 0 := by
  fun_induction parseHexPairs str with
  | case1 => simp
  | case2 c => simp at even
  | case3 high low rest ih =>
      rw [forall_mem_cons, forall_mem_cons, ← ih (by grind), ← strchr_hex_isSome,
        ← strchr_hex_isSome]
      cases strchr hex (atolower high) <;> cases strchr hex (atolower low) <;>
        cases parseHexPairs rest <;> simp

theorem map_atolower_eq {str bytes : List UInt8} (even : str.length % 2 = 0) (ne : 0 ∉ str)
    (parsed : parseHexPairs str = some bytes) : str.map atolower = hexRepresentation bytes := by
  fun_induction parseHexPairs str generalizing bytes with
  | case1 =>
      cases parsed
      rfl
  | case2 c => simp at even
  | case3 high low rest ih =>
      simp only [Option.bind_eq_bind, Option.bind_eq_some_iff, Option.pure_def,
        Option.some.injEq] at parsed
      obtain ⟨ptr0, found, ptr1, foundLow, res, parsedRest, rfl⟩ := parsed
      rw [mem_cons, mem_cons, not_or, not_or] at ne
      obtain ⟨small, digit⟩ := strchr_hex_eq_some
        (fun zero => ne.1 ((atolower_eq_zero_iff high).mp zero).symm) found
      obtain ⟨below, digitLow⟩ := strchr_hex_eq_some
        (fun zero => ne.2.1 ((atolower_eq_zero_iff low).mp zero).symm) foundLow
      have halves := toNat_ofNat_halves small below
      rw [map_cons, map_cons, ih (by grind) ne.2.2 parsedRest]
      simp only [hexRepresentation, flatMap_cons, halves, cons_append, nil_append]
      rw [show (16 * ptr0 + ptr1) / 16 = ptr0 by omega,
        show (16 * ptr0 + ptr1) % 16 = ptr1 by omega, digit, digitLow]

/-- Hexadecimal text is parsed as such except where zero bytes stand among digits only. -/
theorem parsesHex_iff (str : List UInt8) :
    ParsesHex str ↔ 0 ∉ str ∨ str.length % 2 = 1 ∨ ∃ c ∈ str, c ≠ 0 ∧ ¬IsHexDigit c := by
  by_cases even : str.length % 2 = 0
  · have parse : parseHexstr str = parseHexPairs str := by simp [parseHexstr, even]
    rw [ParsesHex, parse, parseHexPairs_isSome even]
    have notDigit : ¬IsHexDigit 0 := by decide
    constructor
    · rintro ⟨digits, -⟩
      by_contra bad
      grind
    · rintro (nonzero | odd | ⟨c, member, nonzero, other⟩)
      · refine ⟨?_, fun bytes => map_atolower_eq even nonzero⟩
        grind
      · omega
      · refine ⟨by grind, fun bytes parsed => ?_⟩
        have := (parseHexPairs_isSome even).mp (by simp [parsed]) c member
        grind
  · have parse : parseHexstr str = none := by simp [parseHexstr, even]
    simp [ParsesHex, parse]
    omega

theorem not_parsesHex_zero : parseHexstr [48, 0] = some [16] ∧ ¬ParsesHex [48, 0] := by
  refine ⟨by decide, fun parses => ?_⟩
  have digits := (parses.1.mp (by decide)).2 0 (by decide)
  revert digits
  decide

end WipeableString

/-! ## Strings in JSON -/

namespace JsonStrings

open List

abbrev Bytes := List UInt8

/-- The cases of `transform_to_escape_sequence`. -/
def escapeByte : UInt8 → Bytes
  | 8 => [92, 98]
  | 12 => [92, 102]
  | 10 => [92, 110]
  | 13 => [92, 114]
  | 9 => [92, 116]
  | 11 => [92, 118]
  | 34 => [92, 34]
  | 92 => [92, 92]
  | 47 => [92, 47]
  | c => [c]

/-- The search runs over the terminator of `escaped` as well. -/
def escaped : Bytes :=
  [8, 12, 10, 13, 9, 11, 34, 92, 47, 0]

def transformToEscapeSequence (src : Bytes) : Bytes :=
  src.takeWhile (· ∉ escaped) ++ (src.dropWhile (· ∉ escaped)).flatMap escapeByte

/-- The bytes that `lut` marks with 32. -/
def endsVerbatim (c : UInt8) : Bool :=
  c = 34 ∨ c = 92

def isx (c : UInt8) : Option Nat :=
  if 48 ≤ c ∧ c ≤ 57 then some (c.toNat - 48)
  else if 65 ≤ c ∧ c ≤ 70 then some (c.toNat - 55)
  else if 97 ≤ c ∧ c ≤ 102 then some (c.toNat - 87)
  else none

def encodeUtf8 (dst : Nat) : Bytes :=
  if dst ≤ 0x7f then [dst.toUInt8]
  else if dst ≤ 0x7ff then [(0xc0 ||| dst >>> 6).toUInt8, (0x80 ||| dst &&& 0x3f).toUInt8]
  else [(0xe0 ||| dst >>> 12).toUInt8, (0x80 ||| dst >>> 6 &&& 0x3f).toUInt8,
    (0x80 ||| dst &&& 0x3f).toUInt8]

/-- The byte that an escape other than `u` stands for. -/
def unescape : UInt8 → UInt8
  | 98 => 8
  | 102 => 12
  | 110 => 10
  | 114 => 13
  | 116 => 9
  | 118 => 11
  | c => c

/-- The loop of `match_string2`. It stops at the closing quote. -/
def matchEscaped : Bool → Bytes → Bytes → Option (Bytes × Bytes)
  | _, _, [] => none
  | true, val, 117 :: d0 :: d1 :: d2 :: d3 :: rest => do
      let digits ← [d0, d1, d2, d3].mapM isx
      let dst := digits.foldl (fun dst digit => dst <<< 4 ||| digit) 0
      matchEscaped false (val ++ encodeUtf8 dst) rest
  | true, val, c :: rest =>
      if c = 117 then none else matchEscaped false (val ++ [unescape c]) rest
  | false, val, c :: rest =>
      if c = 34 then some (val, c :: rest)
      else if c = 92 then matchEscaped true val rest
      else matchEscaped false (val ++ [c]) rest

/-- The text from the closing quote on is returned with the string. -/
def matchString2 (text : Bytes) : Option (Bytes × Bytes) :=
  let rest := text.tail
  matchEscaped false (rest.takeWhile (!endsVerbatim ·)) (rest.dropWhile (!endsVerbatim ·))

theorem matchEscaped_verbatim (val rest : Bytes) :
    matchEscaped false (val ++ rest.takeWhile (!endsVerbatim ·))
      (rest.dropWhile (!endsVerbatim ·)) = matchEscaped false val rest := by
  induction rest generalizing val with
  | nil => simp
  | cons c rest ih =>
      by_cases ends : endsVerbatim c = true
      · simp [ends]
      · obtain ⟨quote, backslash⟩ : c ≠ 34 ∧ c ≠ 92 := by simpa [endsVerbatim] using ends
        rw [takeWhile_cons_of_pos (by simpa using ends),
          dropWhile_cons_of_pos (by simpa using ends), append_cons, ih]
        rw [matchEscaped, if_neg quote, if_neg backslash]

theorem matchEscaped_escapeByte (val rest : Bytes) (c : UInt8) :
    matchEscaped false val (escapeByte c ++ rest) = matchEscaped false (val ++ [c]) rest := by
  unfold escapeByte
  split
  case h_10 => simp_all [matchEscaped]
  all_goals simp [matchEscaped, unescape]

theorem matchEscaped_flatMap (val src rest : Bytes) :
    matchEscaped false val (src.flatMap escapeByte ++ 34 :: rest) =
      some (val ++ src, 34 :: rest) := by
  induction src generalizing val with
  | nil => simp [matchEscaped]
  | cons c src ih =>
      rw [flatMap_cons, append_assoc, matchEscaped_escapeByte, ih, append_assoc]
      rfl

theorem flatMap_escapeByte_of_forall {src : Bytes} (plain : ∀ c ∈ src, c ∉ escaped) :
    src.flatMap escapeByte = src := by
  induction src with
  | nil => rfl
  | cons c src ih =>
      have single : escapeByte c = [c] := by
        have other := plain c mem_cons_self
        unfold escapeByte
        split <;> simp_all [escaped]
      rw [flatMap_cons, single, ih fun c mem => plain c (mem_cons_of_mem _ mem)]
      rfl

theorem transformToEscapeSequence_eq (src : Bytes) :
    transformToEscapeSequence src = src.flatMap escapeByte := by
  have plain : (src.takeWhile (· ∉ escaped)).flatMap escapeByte = src.takeWhile (· ∉ escaped) :=
    flatMap_escapeByte_of_forall fun c mem => by simpa using mem_takeWhile_imp mem
  rw [transformToEscapeSequence, ← plain, ← flatMap_append,
    takeWhile_append_dropWhile]

/-- An escaped string in quotes is read back, up to its closing quote. -/
theorem matchString2_transformToEscapeSequence (src rest : Bytes) :
    matchString2 (34 :: transformToEscapeSequence src ++ 34 :: rest) = some (src, 34 :: rest) := by
  rw [matchString2, cons_append, tail_cons, transformToEscapeSequence_eq]
  have verbatim := matchEscaped_verbatim [] (src.flatMap escapeByte ++ 34 :: rest)
  rw [nil_append] at verbatim
  rw [verbatim, matchEscaped_flatMap, nil_append]

end JsonStrings

/-! ## Portable storage -/

namespace PortableStorage

open List Option

abbrev Bytes := List UInt8

inductive PodType
  | int64 | int32 | int16 | int8 | uint64 | uint32 | uint16 | uint8 | double | bool
  deriving DecidableEq

namespace PodType

def code : PodType → Nat
  | int64 => 1
  | int32 => 2
  | int16 => 3
  | int8 => 4
  | uint64 => 5
  | uint32 => 6
  | uint16 => 7
  | uint8 => 8
  | double => 9
  | bool => 11

def ofCode (code : Nat) : Option PodType :=
  [int64, int32, int16, int8, uint64, uint32, uint16, uint8, double, bool].find?
    fun type => type.code = code

/-- Also `ps_min_bytes`. -/
def size : PodType → Nat
  | int64 | uint64 | double => 8
  | int32 | uint32 => 4
  | int16 | uint16 => 2
  | int8 | uint8 | bool => 1

/-- The bytes of a value, the lowest first. -/
def Accepts (type : PodType) (bytes : Bytes) : Prop :=
  bytes.length = type.size ∧ (type = bool → ∀ byte ∈ bytes, byte.toNat ≤ 1)

instance (type : PodType) : DecidablePred type.Accepts :=
  fun _ => inferInstanceAs (Decidable (_ ∧ _))

abbrev Value (type : PodType) : Type :=
  { bytes : Bytes // type.Accepts bytes }

end PodType

def typeString : Nat := 10

def typeObject : Nat := 12

def typeArray : Nat := 13

def flagArray : Nat := 0x80

def maxStringLenPossible : Nat := 2000000000

abbrev Text : Type :=
  { bytes : Bytes // bytes.length < maxStringLenPossible }

/-- `storage_entry` with the alternatives of `array_entry`. Sections are listed by name. Arrays of
arrays are only read when they are empty. -/
inductive StorageEntry
  | pod (type : PodType) (value : type.Value)
  | string (value : Text)
  | object (entries : List (Bytes × StorageEntry))
  | pods (type : PodType) (values : List type.Value)
  | strings (values : List Text)
  | objects (values : List (List (Bytes × StorageEntry)))
  | noArrays

abbrev Entries := List (Bytes × StorageEntry)

/-! ## Writing -/

def packVarint (val : Nat) : Option Bytes :=
  if val ≤ 63 then some (toLittleEndian 1 (4 * val))
  else if val ≤ 16383 then some (toLittleEndian 2 (4 * val + 1))
  else if val ≤ 1073741823 then some (toLittleEndian 4 (4 * val + 2))
  else if val < 2 ^ 62 then some (toLittleEndian 8 (4 * val + 3))
  else none

def putString (value : Text) : Option Bytes :=
  (packVarint value.val.length).map (· ++ value.val)

def typeByte (type : Nat) : Bytes :=
  toLittleEndian 1 type

mutual

def packEntryToBuff : StorageEntry → Option Bytes
  | .pod type value => some (typeByte type.code ++ value.val)
  | .string value => (putString value).map (typeByte typeString ++ ·)
  | .object entries =>
    (packVarint entries.length).bind fun size =>
      (packEntries entries).map fun packed => typeByte typeObject ++ (size ++ packed)
  | .pods type values =>
    (packVarint values.length).map fun size =>
      typeByte (type.code + flagArray) ++ (size ++ values.flatMap Subtype.val)
  | .strings values =>
    (packVarint values.length).bind fun size =>
      (values.mapM putString).map fun packed =>
        typeByte (typeString + flagArray) ++ (size ++ packed.flatten)
  | .objects values =>
    (packVarint values.length).bind fun size =>
      (packSections values).map fun packed => typeByte (typeObject + flagArray) ++ (size ++ packed)
  | .noArrays => (packVarint 0).map (typeByte (typeArray + flagArray) ++ ·)

def packEntries : List (Bytes × StorageEntry) → Option Bytes
  | [] => some []
  | (name, entry) :: rest =>
    if name.length < 255 ∧ name ≠ [] then
      (packEntryToBuff entry).bind fun packed =>
        (packEntries rest).map fun later =>
          (toLittleEndian 1 name.length ++ name) ++ (packed ++ later)
    else none

def packSections : List (List (Bytes × StorageEntry)) → Option Bytes
  | [] => some []
  | entries :: rest =>
    (packVarint entries.length).bind fun size =>
      (packEntries entries).bind fun packed =>
        (packSections rest).map fun later => (size ++ packed) ++ later

end

def packSection (entries : Entries) : Option Bytes :=
  (packVarint entries.length).bind fun size => (packEntries entries).map (size ++ ·)

def storageBlockHeader : Bytes :=
  toLittleEndian 4 0x01011101 ++ toLittleEndian 4 0x01020101 ++ toLittleEndian 1 1

def storeToBinary (root : Entries) : Option Bytes :=
  (packSection root).map (storageBlockHeader ++ ·)

/-! ## Reading -/

inductive Counter
  | objects | fields | strings
  deriving DecidableEq

/-- `throwable_buffer_reader`. -/
structure BufferReader where
  bytes : Bytes
  counted : Counter → Nat

abbrev Reader := StateT BufferReader Option

/-- `recursuion_limitation_guard`: of the `calls` that may still be nested, `count` are made. -/
def guarded {α : Type} (count calls : Nat) (body : Reader α) : Reader α :=
  if count ≤ calls then body else failure

def readBytes (count : Nat) : Reader Bytes := fun reader =>
  if count ≤ reader.bytes.length then
    some (reader.bytes.take count, { reader with bytes := reader.bytes.drop count })
  else none

def readVarint (calls : Nat) : Reader Nat :=
  guarded 4 calls fun reader =>
    reader.bytes.head?.bind fun first =>
      (readBytes (2 ^ (first.toNat % 4)) reader).map fun read =>
        (ofLittleEndian read.1 / 4, read.2)

def readUint8 (calls : Nat) : Reader Nat :=
  guarded 2 calls (ofLittleEndian <$> readBytes 1)

def readPod (type : PodType) (calls : Nat) : Reader type.Value :=
  guarded 2 calls do
    let bytes ← readBytes type.size
    if valid : type.Accepts bytes then pure ⟨bytes, valid⟩ else failure

def readString (calls : Nat) : Reader Text := do
  let len ← readVarint (calls - 1)
  let bytes ← readBytes len
  if short : bytes.length < maxStringLenPossible then pure ⟨bytes, short⟩ else failure

def readSecName (calls : Nat) : Reader Bytes := do
  let len ← readUint8 (calls - 1)
  if 0 < len then readBytes len else failure

/-- Without limits the bound is the largest `size_t`, which no counter of an input reaches. -/
def count (limits : Option (Counter → Nat)) (counter : Counter) (size : Nat) : Reader Unit :=
  fun reader =>
    if ∀ limit ∈ limits, size ≤ limit counter - reader.counted counter then
      let counted := Function.update reader.counted counter (reader.counted counter + size)
      some ((), { reader with counted })
    else none

def checkSize (minBytes size : Nat) : Reader Unit := fun reader =>
  if size ≤ reader.bytes.length / minBytes then some ((), reader) else none

def readMany {α : Type} (read : Reader α) : Nat → Reader (List α)
  | 0 => pure []
  | size + 1 => do
    let value ← read
    let values ← readMany read size
    pure (value :: values)

/-- `read_ae`, with the elements counted by `charge`. -/
def readAe {α : Type} (minBytes : Nat) (charge : Nat → Reader Unit) (read : Reader α)
    (calls : Nat) : Reader (List α) := do
  let size ← readVarint calls
  checkSize minBytes size
  charge size
  readMany read size

/-- The place of a new name in a map, none when it is there already. -/
def insertEntry (name : Bytes) (entry : StorageEntry) : Entries → Option Entries
  | [] => some [(name, entry)]
  | other :: rest =>
    if other.1 < name then (insertEntry name entry rest).map (other :: ·)
    else if other.1 = name then none
    else some ((name, entry) :: other :: rest)

def readEntries (readName : Reader Bytes) (load : Reader StorageEntry) :
    Nat → Entries → Reader Entries
  | 0, entries => pure entries
  | count + 1, entries => do
    let name ← readName
    let entry ← load
    match insertEntry name entry entries with
    | some entries => readEntries readName load count entries
    | none => failure

variable (limits : Option (Counter → Nat))

mutual

def readSection : Nat → Reader Entries
  | 0 => failure
  | calls + 1 => do
    let size ← readVarint calls
    count limits .fields size
    readEntries (readSecName calls) (loadStorageEntry calls) size []

def readSectionValue : Nat → Reader Entries
  | 0 => failure
  | calls + 1 => readSection calls

def readSeSection : Nat → Reader StorageEntry
  | 0 => failure
  | calls + 1 => do
    count limits .objects 1
    .object <$> readSection calls

def readSeArray : Nat → Reader StorageEntry
  | 0 => failure
  | calls + 1 => do
    let type ← readUint8 calls
    if flagArray ≤ type then loadStorageArrayEntry calls (type - flagArray) else failure

def loadStorageEntry : Nat → Reader StorageEntry
  | 0 => failure
  | calls + 1 => do
    let type ← readUint8 calls
    if flagArray ≤ type then loadStorageArrayEntry calls (type - flagArray)
    else
      match PodType.ofCode type with
      | some pod => .pod pod <$> readPod pod (calls - 1)
      | none =>
        if type = typeString then do
          count limits .strings 1
          .string <$> readString (calls - 2)
        else if type = typeObject then readSeSection calls
        else if type = typeArray then readSeArray calls
        else failure

def loadStorageArrayEntry : Nat → Nat → Reader StorageEntry
  | 0, _ => failure
  | calls + 1, type =>
    match PodType.ofCode type with
    | some pod =>
      .pods pod <$> readAe pod.size (fun _ => pure ()) (readPod pod (calls - 2)) (calls - 1)
    | none =>
      if type = typeString then
        .strings <$> readAe 2 (count limits .strings) (readString (calls - 2)) (calls - 1)
      else if type = typeObject then readAeSections calls
      else if type = typeArray then
        (fun _ => .noArrays) <$> readAe 1 (fun _ => pure ()) (failure : Reader Unit) (calls - 1)
      else failure

def readAeSections : Nat → Reader StorageEntry
  | 0 => failure
  | calls + 1 => .objects <$> readAe 1 (count limits .objects) (readSectionValue calls) calls

end

def loadFromBinary (source : Bytes) : Option Entries :=
  if source.take storageBlockHeader.length = storageBlockHeader then
    ((readSection limits 99).run ⟨source.drop storageBlockHeader.length, fun _ => 0⟩).map Prod.fst
  else none

/-! ## What can be read back -/

mutual

/-- Each array of strings is followed by two bytes for each of them, given the number of bytes
behind the entry. -/
def StringsFit : StorageEntry → Nat → Prop
  | .object entries, after => EntriesFit entries after
  | .strings values, after =>
    values.length ≤ (((values.mapM putString).getD []).flatten.length + after) / 2
  | .objects values, after => SectionsFit values after
  | .pod _ _, _ | .string _, _ | .pods _ _, _ | .noArrays, _ => True

def EntriesFit : List (Bytes × StorageEntry) → Nat → Prop
  | [], _ => True
  | (_, entry) :: rest, after =>
    StringsFit entry (((packEntries rest).getD []).length + after) ∧ EntriesFit rest after

def SectionsFit : List (List (Bytes × StorageEntry)) → Nat → Prop
  | [], _ => True
  | entries :: rest, after =>
    EntriesFit entries (((packSections rest).getD []).length + after) ∧ SectionsFit rest after

end

mutual

/-- Sections are maps and nest at most so deep. -/
def IsTree : StorageEntry → Nat → Prop
  | .object entries, depth => 0 < depth ∧ IsMap entries (depth - 1)
  | .objects values, depth => AreMaps values depth
  | .pod _ _, _ | .string _, _ | .pods _ _, _ | .strings _, _ | .noArrays, _ => True

def IsMap : List (Bytes × StorageEntry) → Nat → Prop
  | [], _ => True
  | (name, entry) :: rest, depth =>
    (∀ other ∈ rest, name < other.1) ∧ IsTree entry depth ∧ IsMap rest depth

def AreMaps : List (List (Bytes × StorageEntry)) → Nat → Prop
  | [], _ => True
  | entries :: rest, depth => (0 < depth ∧ IsMap entries (depth - 1)) ∧ AreMaps rest depth

end

/-- With anything behind what was written, a reader gives the value if it `fits` and throws
otherwise. -/
def Reads {α : Type} (read : Reader α) (written : Bytes) (value : α) (fits : Nat → Prop) : Prop :=
  ∀ reader rest, reader.bytes = written ++ rest →
    (fits rest.length → ∃ after, read reader = some (value, after) ∧ after.bytes = rest) ∧
      (¬fits rest.length → read reader = none)

section Combinators

variable {α β : Type} {read : Reader α} {next : α → Reader β} {written later : Bytes} {value : α}
  {result : β} {fits laterFits : Nat → Prop}

theorem Reads.congr (reads : Reads read written value fits) (same : written = later)
    (eq : ∀ after, fits after ↔ laterFits after) : Reads read later value laterFits := by
  obtain rfl : fits = laterFits := funext fun after => propext (eq after)
  rwa [← same]

theorem Reads.bind (first : Reads read written value fits)
    (second : Reads (next value) later result laterFits) :
    Reads (read >>= next) (written ++ later) result
      fun after => fits (later.length + after) ∧ laterFits after := by
  intro reader rest bytes
  obtain ⟨accepts, refuses⟩ := first reader _ (by rw [bytes, append_assoc])
  rw [length_append] at accepts refuses
  by_cases front : fits (later.length + rest.length)
  · obtain ⟨middle, reads, left⟩ := accepts front
    have run : (read >>= next) reader = next value middle := by
      change (read reader).bind _ = _
      rw [reads]
      rfl
    simpa only [run, front, true_and] using second middle rest left
  · refine ⟨fun both => absurd both.1 front, fun _ => ?_⟩
    change (read reader).bind _ = none
    rw [refuses front]
    rfl

theorem Reads.andThen (first : Reads read written value fun _ => True)
    (second : Reads (next value) later result fits) :
    Reads (read >>= next) (written ++ later) result fits :=
  (first.bind second).congr rfl fun _ => and_iff_right trivial

theorem Reads.pure (value : α) : Reads (Pure.pure value) [] value fun _ => True :=
  fun reader _ bytes => ⟨fun _ => ⟨reader, rfl, bytes⟩, fun never => absurd trivial never⟩

theorem Reads.map (reads : Reads read written value fits) (change : α → β) :
    Reads (change <$> read) written (change value) fits := by
  have mapped : change <$> read = read >>= fun value => Pure.pure (change value) := rfl
  rw [mapped]
  exact (reads.bind (.pure (change value))).congr (append_nil _) (by simp)

theorem Reads.many {values : List α} {size : Nat} (first : Reads read written value fits)
    (others : Reads (readMany read size) later values laterFits) :
    Reads (readMany read (size + 1)) (written ++ later) (value :: values)
      fun after => fits (later.length + after) ∧ laterFits after :=
  (first.bind (others.bind (.pure (value :: values)))).congr (by simp) (by simp)

end Combinators

variable {calls val : Nat} {written : Bytes}

theorem bind_map_eq_some {α β γ : Type} {first : Option α} {second : α → Option β}
    {join : α → β → γ} {result : γ}
    (done : (first.bind fun one => (second one).map (join one)) = some result) :
    ∃ one, first = some one ∧ ∃ two, second one = some two ∧ join one two = result := by
  simpa only [bind_eq_some_iff, map_eq_some_iff] using done

theorem reads_readBytes (bytes : Bytes) :
    Reads (readBytes bytes.length) bytes bytes fun _ => True := by
  intro reader rest split
  refine ⟨fun _ => ⟨{ reader with bytes := rest }, ?_, rfl⟩, fun never => absurd trivial never⟩
  rw [readBytes, if_pos (by simp [split]), split, take_left, drop_left]

theorem packVarint_eq_some (packed : packVarint val = some written) :
    ∃ mark < 4, written = toLittleEndian (2 ^ mark) (4 * val + mark) ∧
      4 * val + mark < 256 ^ 2 ^ mark := by
  unfold packVarint at packed
  split_ifs at packed
  all_goals cases packed
  · exact ⟨0, by decide, rfl, by omega⟩
  · exact ⟨1, by decide, rfl, by omega⟩
  · exact ⟨2, by decide, rfl, by omega⟩
  · exact ⟨3, by decide, rfl, by omega⟩

theorem length_pos_of_packVarint (packed : packVarint val = some written) : 0 < written.length := by
  obtain ⟨mark, -, rfl, -⟩ := packVarint_eq_some packed
  rw [length_toLittleEndian]
  exact Nat.two_pow_pos mark

theorem reads_readVarint (packed : packVarint val = some written) (enough : 4 ≤ calls) :
    Reads (readVarint calls) written val fun _ => True := by
  obtain ⟨mark, small, rfl, fits⟩ := packVarint_eq_some packed
  intro reader rest split
  obtain ⟨after, read, left⟩ := (reads_readBytes _ reader rest split).1 trivial
  refine ⟨fun _ => ⟨after, ?_, left⟩, fun never => absurd trivial never⟩
  obtain ⟨width, pos⟩ := Nat.exists_eq_succ_of_ne_zero (Nat.ne_of_gt (Nat.two_pow_pos mark))
  have first : reader.bytes.head? = some ((4 * val + mark) % 256).toUInt8 := by
    rw [split, pos]
    rfl
  have low : ((4 * val + mark) % 256).toUInt8.toNat % 4 = mark := by
    simp
    omega
  rw [length_toLittleEndian] at read
  rw [readVarint, guarded, if_pos enough, first, bind_some, low, read, map_some,
    ofLittleEndian_toLittleEndian_of_lt fits, show (4 * val + mark) / 4 = val by omega]

theorem reads_readUint8 (small : val < 256) (enough : 2 ≤ calls) :
    Reads (readUint8 calls) (toLittleEndian 1 val) val fun _ => True := by
  rw [readUint8, guarded, if_pos enough]
  have read := (reads_readBytes (toLittleEndian 1 val)).map ofLittleEndian
  rwa [ofLittleEndian_toLittleEndian_of_lt (by omega)] at read

variable {type : PodType} {name : Bytes} {entries : Entries}

theorem reads_readPod (value : type.Value) (enough : 2 ≤ calls) :
    Reads (readPod type calls) value.val value fun _ => True := by
  rw [readPod, guarded, if_pos enough, ← value.property.1]
  refine ((reads_readBytes _).andThen (?_ : Reads _ [] value _)).congr (append_nil _)
    fun _ => .rfl
  rw [dif_pos]
  exact .pure value

theorem reads_readString {value : Text} (packed : putString value = some written)
    (enough : 5 ≤ calls) : Reads (readString calls) written value fun _ => True := by
  obtain ⟨size, sized, rfl⟩ := map_eq_some_iff.mp packed
  rw [← append_nil value.val]
  refine (reads_readVarint sized (by omega)).andThen ((reads_readBytes _).andThen ?_)
  rw [dif_pos]
  exact .pure value

theorem reads_readSecName (short : name.length < 255) (ne : name ≠ []) (enough : 3 ≤ calls) :
    Reads (readSecName calls) (toLittleEndian 1 name.length ++ name) name fun _ => True := by
  refine (reads_readUint8 (by omega) (by omega)).andThen ?_
  rw [if_pos (length_pos_iff.mpr ne)]
  exact reads_readBytes name

theorem reads_checkSize (minBytes size : Nat) :
    Reads (checkSize minBytes size) [] () fun after => size ≤ after / minBytes := by
  intro reader rest bytes
  rw [checkSize, bytes]
  exact ⟨fun fits => ⟨reader, if_pos fits, bytes⟩, fun large => if_neg large⟩

theorem reads_count (counter : Counter) (size : Nat) :
    Reads (count none counter size) [] () fun _ => True :=
  fun _ _ bytes => ⟨fun _ => ⟨_, if_pos (by simp), bytes⟩, fun never => absurd trivial never⟩

/-! ## Arrays -/

theorem reads_readAe {α : Type} {read : Reader α} {charge : Nat → Reader Unit} {values : List α}
    {size packed : Bytes} {fits : Nat → Prop} (minBytes : Nat)
    (sized : packVarint values.length = some size)
    (counted : Reads (charge values.length) [] () fun _ => True)
    (elements : Reads (readMany read values.length) packed values fits) (enough : 4 ≤ calls) :
    Reads (readAe minBytes charge read calls) (size ++ packed) values fun after =>
      values.length ≤ (packed.length + after) / minBytes ∧ fits after :=
  (reads_readVarint sized enough).andThen
    ((reads_checkSize minBytes values.length).bind (counted.andThen elements))

theorem reads_pods (values : List type.Value) (enough : 2 ≤ calls) :
    Reads (readMany (readPod type calls) values.length) (values.flatMap Subtype.val) values
      fun _ => True := by
  induction values with
  | nil => exact .pure []
  | cons value values ih =>
    exact ((reads_readPod value enough).many ih).congr flatMap_cons.symm fun _ => and_self_iff

theorem length_pods (values : List type.Value) :
    (values.flatMap Subtype.val).length = values.length * type.size := by
  induction values with
  | nil => simp
  | cons value values ih =>
    rw [flatMap_cons, length_append, ih, value.property.1, length_cons, Nat.succ_mul, add_comm]

theorem reads_strings {values : List Text} {packed : List Bytes}
    (spelled : values.mapM putString = some packed) (enough : 5 ≤ calls) :
    Reads (readMany (readString calls) values.length) packed.flatten values fun _ => True := by
  induction values generalizing packed with
  | nil =>
    cases spelled
    exact .pure []
  | cons value values ih =>
    simp only [mapM_cons, Option.bind_eq_bind, Option.bind_eq_some_iff, Option.pure_def,
      Option.some.injEq] at spelled
    obtain ⟨first, put, others, rest, rfl⟩ := spelled
    exact ((reads_readString put enough).many (ih rest)).congr flatten_cons.symm
      fun _ => and_self_iff

/-! ## Sections -/

variable {depth : Nat}

theorem insertEntry_last {entry : StorageEntry} (last : ∀ other ∈ entries, other.1 < name) :
    insertEntry name entry entries = some (entries ++ [(name, entry)]) := by
  induction entries with
  | nil => rfl
  | cons other rest ih =>
    rw [forall_mem_cons] at last
    rw [insertEntry, if_pos last.1, ih last.2]
    rfl

/-- With so many calls left, every entry of this depth is read as far as its strings fit. -/
def EntriesLoad (depth calls : Nat) : Prop :=
  ∀ entry written, IsTree entry depth → packEntryToBuff entry = some written →
    Reads (loadStorageEntry none calls) written entry (StringsFit entry)

def SectionsLoad (depth calls : Nat) : Prop :=
  ∀ entries written, IsMap entries depth → packSection entries = some written →
    Reads (readSection none calls) written entries (EntriesFit entries)

theorem EntriesLoad.reads_readEntries {before : Entries} (loads : EntriesLoad depth calls)
    (enough : 3 ≤ calls) (later : ∀ other ∈ before, ∀ entry ∈ entries, other.1 < entry.1)
    (map : IsMap entries depth) (packed : packEntries entries = some written) :
    Reads (readEntries (readSecName calls) (loadStorageEntry none calls) entries.length before)
      written (before ++ entries) (EntriesFit entries) := by
  induction entries generalizing before written with
  | nil =>
    cases packed
    rw [append_nil]
    exact (Reads.pure before).congr rfl (by simp [EntriesFit])
  | cons first rest ih =>
    obtain ⟨name, entry⟩ := first
    rw [packEntries] at packed
    split_ifs at packed with named
    obtain ⟨value, valuePacked, others, othersPacked, rfl⟩ := bind_map_eq_some packed
    obtain ⟨above, tree, restMap⟩ := map
    have sorted : ∀ other ∈ before ++ [(name, entry)], ∀ entry ∈ rest, other.1 < entry.1 := by
      intro other mem entry inRest
      rcases mem_append.mp mem with prev | last
      · exact later other prev entry (mem_cons_of_mem _ inRest)
      · rw [mem_singleton.mp last]
        exact above entry inRest
    have reads := ih sorted restMap othersPacked
    rw [append_assoc] at reads
    refine ((reads_readSecName named.1 named.2 enough).andThen ((loads entry value tree
      valuePacked).bind (?_ : Reads _ others _ (EntriesFit rest)))).congr rfl ?_
    · rw [insertEntry_last fun other prev => later other prev _ mem_cons_self]
      exact reads
    · intro after
      rw [EntriesFit, othersPacked, getD_some]

theorem EntriesLoad.sectionsLoad (loads : EntriesLoad depth calls) (enough : 4 ≤ calls) :
    SectionsLoad depth (calls + 1) := by
  intro entries written map packed
  obtain ⟨size, sized, others, othersPacked, rfl⟩ := bind_map_eq_some packed
  exact (reads_readVarint sized enough).andThen ((reads_count _ _).andThen
    (loads.reads_readEntries (by omega) (by simp) map othersPacked))

theorem SectionsLoad.reads_sections {values : List Entries}
    (inner : 0 < depth → SectionsLoad (depth - 1) calls) (maps : AreMaps values depth)
    (packed : packSections values = some written) :
    values.length ≤ written.length ∧
      Reads (readMany (readSectionValue none (calls + 1)) values.length) written values
        (SectionsFit values) := by
  induction values generalizing written with
  | nil =>
    cases packed
    exact ⟨Nat.le_refl _, (Reads.pure []).congr rfl (by simp [SectionsFit])⟩
  | cons entries rest ih =>
    obtain ⟨size, sized, packed⟩ := bind_eq_some_iff.mp packed
    obtain ⟨body, bodyPacked, others, othersPacked, rfl⟩ := bind_map_eq_some packed
    obtain ⟨⟨pos, map⟩, restMaps⟩ := maps
    obtain ⟨least, restReads⟩ := ih restMaps othersPacked
    have first := length_pos_of_packVarint sized
    have reads : Reads (readSectionValue none (calls + 1)) _ _ _ :=
      inner pos entries (size ++ body) map (by simp [packSection, sized, bodyPacked])
    refine ⟨by simp; omega, (reads.many restReads).congr rfl ?_⟩
    intro after
    rw [SectionsFit, othersPacked, getD_some]

theorem ofCode_code (type : PodType) : PodType.ofCode type.code = some type := by
  cases type <;> rfl

theorem code_lt (type : PodType) : type.code < flagArray := by
  cases type <;> decide

theorem entriesLoad (inner : 0 < depth → ∀ calls ≥ 5 * depth + 5, SectionsLoad (depth - 1) calls)
    (enough : 5 * depth + 5 ≤ calls) : EntriesLoad depth (calls + 4) := by
  intro entry written tree packed
  cases entry with
  | pod type value =>
    have small := code_lt type
    cases packed
    refine (reads_readUint8 (by rw [flagArray] at small; omega) (by omega)).andThen ?_
    rw [if_neg (Nat.not_le.mpr small), ofCode_code]
    exact ((reads_readPod value (by omega)).map _).congr rfl (by simp [StringsFit])
  | string value =>
    obtain ⟨body, put, rfl⟩ := map_eq_some_iff.mp packed
    refine (reads_readUint8 (by decide) (by omega)).andThen ((reads_count _ 1).andThen ?_)
    exact ((reads_readString put (by omega)).map _).congr rfl (by simp [StringsFit])
  | object entries =>
    obtain ⟨size, sized, body, bodyPacked, rfl⟩ := bind_map_eq_some packed
    have reads := inner tree.1 (calls + 2) (by omega) entries (size ++ body) tree.2
      (by simp [packSection, sized, bodyPacked])
    refine (reads_readUint8 (by decide) (by omega)).andThen ((reads_count _ 1).andThen ?_)
    exact (reads.map _).congr rfl (by simp [StringsFit])
  | pods type values =>
    have small := code_lt type
    obtain ⟨size, sized, rfl⟩ := map_eq_some_iff.mp packed
    refine (reads_readUint8 (by rw [flagArray] at *; omega) (by omega)).andThen ?_
    rw [Nat.add_sub_cancel, loadStorageArrayEntry, ofCode_code]
    refine ((reads_readAe _ sized (.pure ()) (reads_pods values (by omega))
      (by omega)).map _).congr rfl fun after => ?_
    have room : values.length ≤ (values.length * type.size + after) / type.size :=
      (Nat.le_div_iff_mul_le (by cases type <;> decide)).mpr (Nat.le_add_right _ _)
    rw [length_pods]
    exact iff_of_true ⟨room, trivial⟩ trivial
  | strings values =>
    obtain ⟨size, sized, texts, spelled, rfl⟩ := bind_map_eq_some packed
    refine (reads_readUint8 (by decide) (by omega)).andThen ?_
    exact ((@reads_readAe _ _ _ _ _ _ _ _ 2 sized (reads_count _ _)
      (reads_strings spelled (by omega)) (by omega)).map _).congr rfl
      (by simp [StringsFit, spelled])
  | objects values =>
    obtain ⟨size, sized, body, bodyPacked, rfl⟩ := bind_map_eq_some packed
    obtain ⟨least, reads⟩ :=
      SectionsLoad.reads_sections (fun pos => inner pos calls enough) tree bodyPacked
    refine (reads_readUint8 (by decide) (by omega)).andThen ?_
    refine ((reads_readAe 1 sized (reads_count _ _) reads (by omega)).map _).congr rfl
      fun after => ?_
    rw [and_iff_right (by omega), StringsFit]
  | noArrays =>
    cases packed
    refine (reads_readUint8 (by decide) (by omega)).andThen ?_
    exact ((@reads_readAe _ Unit failure _ [] _ _ _ 1 rfl (.pure ()) (.pure [])
      (by omega)).map _).congr rfl (by simp [StringsFit])

theorem sectionsLoad (enough : 5 * depth + 10 ≤ calls) : SectionsLoad depth calls := by
  induction depth using Nat.strongRecOn generalizing calls with
  | ind depth ih =>
    obtain ⟨fewer, rfl⟩ := Nat.exists_eq_add_of_le' (show 5 ≤ calls by omega)
    refine (entriesLoad (fun pos calls more => ?_) (by omega)).sectionsLoad (by omega)
    exact ih _ (by omega) (by omega)

/-- A stored tree is loaded again when each array of strings has room, and only then. -/
theorem loadFromBinary_storeToBinary_iff {root : Entries} {source : Bytes}
    (nested : IsMap root 15) (stored : storeToBinary root = some source) :
    loadFromBinary none source = some root ↔ EntriesFit root 0 := by
  obtain ⟨packed, sectionPacked, rfl⟩ := map_eq_some_iff.mp stored
  obtain ⟨accepts, refuses⟩ := @sectionsLoad 99 15 (by omega) root packed nested sectionPacked
    ⟨packed, fun _ => 0⟩ [] (append_nil packed).symm
  rw [loadFromBinary, if_pos (by simp), drop_left]
  constructor
  · intro loads
    by_contra tight
    rw [StateT.run, refuses tight] at loads
    cases loads
  · intro room
    obtain ⟨reader, reads, _⟩ := accepts room
    rw [StateT.run, reads]
    rfl

def emptyString : Text :=
  ⟨[], by decide⟩

def nestedEntries : Entries :=
  [([97], .strings [⟨[98, 99], by decide⟩, emptyString]),
    ([98], .object [([97], .string emptyString)])]

theorem loadFromBinary_storeToBinary_nested : ∃ source, storeToBinary nestedEntries = some source ∧
      loadFromBinary none source = some nestedEntries := by
  have ordered : ([97] : Bytes) < [98] := by decide
  refine ⟨_, rfl, (loadFromBinary_storeToBinary_iff ?_ rfl).mpr ?_⟩
  · simp [nestedEntries, IsMap, IsTree, ordered]
  · simp [nestedEntries, EntriesFit, StringsFit]
    decide

/-- The reader asks for two bytes behind the count of an array of one empty string. -/
theorem loadFromBinary_empty_string : ∃ source, IsMap [([97], .strings [emptyString])] 15 ∧
      storeToBinary [([97], .strings [emptyString])] = some source ∧
        loadFromBinary none source = none := by
  refine ⟨_, ?_, rfl, rfl⟩
  simp [IsMap, IsTree]

end PortableStorage

end LodeChain

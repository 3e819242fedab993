import LodeChain.WrappedArithmetic
import LodeChain.TxExtra
import Mathlib.Data.List.GetD
import Mathlib.Data.Nat.Digits.Lemmas

/-!
# Addresses and seeds as text

`tools::base58` writes eight bytes as eleven letters, a shorter last block as those it may need. An
address is a tag, its data and a checksum written that way. A seed is written as words, three of
them for four bytes.
-/

namespace LodeChain

namespace Base58

open TxExtra List

def alphabet : Bytes :=
  "123456789ABCDEFGHJKLMNPQRSTUVWXYZabcdefghijkmnopqrstuvwxyz".toList.map
    fun letter => letter.toNat.toUInt8

def alphabetSize : Nat := 58

def encodedBlockSizes : List Nat := [0, 2, 3, 5, 6, 7, 9, 10, 11]

def fullBlockSize : Nat := 8

def fullEncodedBlockSize : Nat := 11

def letter (digit : Nat) : UInt8 :=
  alphabet.getD digit 0

def positionIn {α : Type} [DecidableEq α] (table : List α) (entry : α) : Option Nat :=
  if entry ∈ table then some (table.idxOf entry) else none

def reverseAlphabet : UInt8 → Option Nat :=
  positionIn alphabet

def decodedBlockSizes : Nat → Option Nat :=
  positionIn encodedBlockSizes

def uint8beTo64 (data : Bytes) : Nat :=
  ofLittleEndian data.reverse

def uint64To8be (num size : Nat) : Bytes :=
  (toLittleEndian size num).reverse

def encodeDigits : Nat → Nat → Bytes → Bytes
  | 0, _, res => res
  | i + 1, num, res =>
    if 0 < num then encodeDigits i (num / alphabetSize) (res.set i (letter (num % alphabetSize)))
    else res

def encodeBlock (block : Bytes) : Bytes :=
  let size := encodedBlockSizes.getD block.length 0
  encodeDigits size (uint8beTo64 block) (List.replicate size (letter 0))

def decodeDigits : Bytes → Nat → Nat → Option Nat
  | [], resNum, _ => some resNum
  | symbol :: rest, resNum, order =>
    (reverseAlphabet symbol).bind fun digit =>
      let tmp := (resNum + order * digit % 2 ^ 64) % 2 ^ 64
      if tmp < resNum ∨ order * digit / 2 ^ 64 ≠ 0 then none
      else decodeDigits rest tmp (order * alphabetSize % 2 ^ 64)

def decodeBlock (block : Bytes) : Option Bytes :=
  (decodedBlockSizes block.length).bind fun resSize => if resSize = 0 then none
    else
      (decodeDigits block.reverse 0 1).bind fun resNum =>
        if resSize < fullBlockSize ∧ 2 ^ (8 * resSize) ≤ resNum then none
        else some (uint64To8be resNum resSize)

def encodeBlocks : Nat → Bytes → Bytes
  | 0, data => if data = [] then [] else encodeBlock data
  | count + 1, data =>
    encodeBlock (data.take fullBlockSize) ++ encodeBlocks count (data.drop fullBlockSize)

def encode (data : Bytes) : Bytes :=
  encodeBlocks (data.length / fullBlockSize) data

def decodeBlocks : Nat → Bytes → Option Bytes
  | 0, enc => if enc = [] then some [] else decodeBlock enc
  | count + 1, enc =>
    (decodeBlock (enc.take fullEncodedBlockSize)).bind fun front =>
      (decodeBlocks count (enc.drop fullEncodedBlockSize)).map (front ++ ·)

def decode (enc : Bytes) : Option Bytes :=
  (decodedBlockSizes (enc.length % fullEncodedBlockSize)).bind fun _ =>
    decodeBlocks (enc.length / fullEncodedBlockSize) enc

def addrChecksumSize : Nat := 4

variable (cnFastHash : Bytes → Pod)

def checksum (buf : Bytes) : Bytes :=
  (cnFastHash buf).val.take addrChecksumSize

def encodeAddr (tag : Nat) (data : Bytes) : Bytes :=
  let buf := writeVarint tag ++ data
  encode (buf ++ checksum cnFastHash buf)

def decodeAddr (addr : Bytes) : Option (Nat × Bytes) :=
  (decode addr).bind fun addrData => if addrData.length ≤ addrChecksumSize then none
    else
      let found := addrData.drop (addrData.length - addrChecksumSize)
      let kept := addrData.take (addrData.length - addrChecksumSize)
      if checksum cnFastHash kept ≠ found then none else readVarint kept

/-! ## Digits and letters -/

variable {block enc data : Bytes} {num digit : Nat} {symbol : UInt8}

theorem positionIn_eq_some_iff {α : Type} [DecidableEq α] {table : List α} {entry : α}
    (nodup : table.Nodup) (other : α) {position : Nat} : positionIn table entry = some position ↔
      position < table.length ∧ table.getD position other = entry := by
  unfold positionIn
  constructor
  · intro found
    split_ifs at found with mem
    cases found
    have lt := idxOf_lt_length_iff.mpr mem
    exact ⟨lt, by rw [getD_eq_getElem _ _ lt, getElem_idxOf]⟩
  · rintro ⟨lt, rfl⟩
    rw [getD_eq_getElem _ _ lt, if_pos (getElem_mem lt),
      nodup.idxOf_getElem position]

theorem reverseAlphabet_eq_some_iff :
    reverseAlphabet symbol = some digit ↔ digit < alphabetSize ∧ letter digit = symbol :=
  positionIn_eq_some_iff (by decide +kernel) 0

variable {size : Nat}

theorem decodedBlockSizes_eq_some_iff {encoded : Nat} : decodedBlockSizes encoded = some size ↔
      size ≤ fullBlockSize ∧ encodedBlockSizes.getD size 0 = encoded :=
  (positionIn_eq_some_iff (by decide) 0).trans (and_congr_left' Nat.lt_succ_iff)

theorem mapM_reverseAlphabet_eq_some_iff {digits : List Nat} :
    block.mapM reverseAlphabet = some digits ↔
      (∀ digit ∈ digits, digit < alphabetSize) ∧ digits.map letter = block := by
  induction block generalizing digits with
  | nil => cases digits <;> simp
  | cons symbol block ih =>
    cases digits with
    | nil => simp [mapM_cons, Option.bind_eq_some_iff]
    | cons digit digits =>
      simp [mapM_cons, Option.bind_eq_some_iff, ih, reverseAlphabet_eq_some_iff]
      tauto

theorem encodeDigits_eq (small : num < alphabetSize ^ size) (tail : Bytes) :
    encodeDigits size num (List.replicate size (letter 0) ++ tail) =
      ((Nat.digitsAppend alphabetSize size num).map letter).reverse ++ tail := by
  induction size generalizing num tail with
  | zero =>
    obtain rfl : num = 0 := by simpa using small
    rfl
  | succ size ih =>
    rw [encodeDigits]
    split_ifs with more
    · have smaller : num / alphabetSize < alphabetSize ^ size :=
        Nat.div_lt_of_lt_mul (by rwa [pow_succ'] at small)
      have placed : (List.replicate (size + 1) (letter 0) ++ tail).set size
            (letter (num % alphabetSize)) =
          List.replicate size (letter 0) ++ letter (num % alphabetSize) :: tail := by
        rw [replicate_succ']
        simp
      have shifted : Nat.digitsAppend alphabetSize (size + 1) num =
          num % alphabetSize :: Nat.digitsAppend alphabetSize size (num / alphabetSize) := by
        rw [Nat.digitsAppend, Nat.digits_def' (by decide) more, length_cons, Nat.add_sub_add_right]
        rfl
      rw [placed, ih smaller, shifted]
      simp
    · obtain rfl : num = 0 := by omega
      simp [Nat.digitsAppend]

theorem decodeDigits_eq {symbols : Bytes} {resNum order place : Nat} (fits : resNum < 2 ^ 64)
    (places : symbols ≠ [] → order = alphabetSize ^ place)
    (short : place + symbols.length ≤ fullEncodedBlockSize) :
    decodeDigits symbols resNum order = (symbols.mapM reverseAlphabet).bind fun digits =>
      if resNum + alphabetSize ^ place * Nat.ofDigits alphabetSize digits < 2 ^ 64 then
        some (resNum + alphabetSize ^ place * Nat.ofDigits alphabetSize digits)
      else none := by
  induction symbols generalizing resNum order place with
  | nil =>
    simp [decodeDigits]
    omega
  | cons symbol symbols ih =>
    rw [places (cons_ne_nil _ _), decodeDigits, mapM_cons]
    rcases found : reverseAlphabet symbol with _ | digit
    · rfl
    have grown : ∀ digits, resNum + alphabetSize ^ place *
          Nat.ofDigits alphabetSize (digit :: digits) =
        resNum + alphabetSize ^ place * digit +
          alphabetSize ^ (place + 1) * Nat.ofDigits alphabetSize digits := by
      intro digits
      rw [Nat.ofDigits_cons]
      ring
    simp only [Option.bind_eq_bind, Option.bind_some, Option.bind_assoc, Option.pure_def, grown]
    generalize alphabetSize ^ place * digit = product
    split_ifs with overflow
    · symm
      rw [Option.bind_eq_none_iff]
      intro digits _
      rw [if_neg]
      omega
    · have sum : (resNum + product % 2 ^ 64) % 2 ^ 64 = resNum + product := by omega
      rw [length_cons] at short
      rw [sum, @ih _ _ (place + 1) (by omega) ?_ (by omega)]
      intro more
      have last := length_pos_iff.mpr more
      have bound := Nat.pow_le_pow_right (show 0 < alphabetSize by decide)
        (show place + 1 ≤ 10 by rw [fullEncodedBlockSize] at short; omega)
      exact Nat.mod_eq_of_lt (bound.trans_lt (by decide))

/-! ## Blocks -/

theorem uint64To8be_eq_iff : num < 256 ^ size ∧ uint64To8be num size = data ↔
      data.length = size ∧ uint8beTo64 data = num := by
  constructor
  · rintro ⟨small, rfl⟩
    simp [uint64To8be, uint8beTo64, ofLittleEndian_toLittleEndian_of_lt small]
  · rintro ⟨rfl, rfl⟩
    unfold uint64To8be uint8beTo64
    rw [← length_reverse, toLittleEndian_ofLittleEndian, reverse_reverse]
    exact ⟨ofLittleEndian_lt _, rfl⟩

theorem pow_encodedBlockSize (short : size ≤ fullBlockSize) :
    256 ^ size ≤ alphabetSize ^ encodedBlockSizes.getD size 0 := by
  have all : ∀ size < 9, 256 ^ size ≤ alphabetSize ^ encodedBlockSizes.getD size 0 := by decide
  exact all size (Nat.lt_succ_of_le short)

theorem uint8beTo64_lt (short : block.length ≤ fullBlockSize) :
    uint8beTo64 block < alphabetSize ^ encodedBlockSizes.getD block.length 0 := by
  have bound := ofLittleEndian_lt block.reverse
  rw [length_reverse] at bound
  exact bound.trans_le (pow_encodedBlockSize short)

theorem encodeBlock_eq (short : block.length ≤ fullBlockSize) :
    encodeBlock block = ((Nat.digitsAppend alphabetSize
      (encodedBlockSizes.getD block.length 0) (uint8beTo64 block)).map letter).reverse := by
  have written := encodeDigits_eq (uint8beTo64_lt short) []
  rwa [append_nil, append_nil] at written

theorem length_encodeBlock (short : block.length ≤ fullBlockSize) :
    (encodeBlock block).length = encodedBlockSizes.getD block.length 0 := by
  rw [encodeBlock_eq short, length_reverse, length_map,
    Nat.length_digitsAppend (by decide) _ (uint8beTo64_lt short)]

theorem lt_pow_iff (short : size ≤ fullBlockSize) :
    num < 256 ^ size ↔ num < 2 ^ 64 ∧ ¬(size < fullBlockSize ∧ 2 ^ (8 * size) ≤ num) := by
  have power : 256 ^ size = 2 ^ (8 * size) := by rw [Nat.pow_mul]
  rcases short.eq_or_lt with rfl | shorter
  · simp [fullBlockSize]
  · have bound := Nat.pow_le_pow_right (show 0 < 2 by decide)
      (show 8 * size ≤ 64 by rw [fullBlockSize] at shorter; omega)
    omega

theorem decodeBlock_eq_some_iff_digits : decodeBlock block = some data ↔
      ∃ digits, ((∀ digit ∈ digits, digit < alphabetSize) ∧ digits.map letter = block.reverse) ∧
        data ≠ [] ∧ data.length ≤ fullBlockSize ∧
        encodedBlockSizes.getD data.length 0 = block.length ∧
        uint8beTo64 data = Nat.ofDigits alphabetSize digits := by
  have read : ∀ size, size ≤ fullBlockSize → encodedBlockSizes.getD size 0 = block.length →
      decodeDigits block.reverse 0 1 = (block.reverse.mapM reverseAlphabet).bind fun digits =>
        if Nat.ofDigits alphabetSize digits < 2 ^ 64 then
          some (Nat.ofDigits alphabetSize digits) else none := by
    intro size short sized
    have all : ∀ size < 9, encodedBlockSizes.getD size 0 ≤ fullEncodedBlockSize := by decide
    have bound := all size (Nat.lt_succ_of_le short)
    rw [@decodeDigits_eq _ 0 1 0 (Nat.two_pow_pos 64) (fun _ => rfl)
      (by rw [length_reverse]; omega)]
    simp only [pow_zero, one_mul, zero_add]
  unfold decodeBlock
  rw [Option.bind_eq_some_iff]
  constructor
  · rintro ⟨size, sized, decoded⟩
    obtain ⟨short, encoded⟩ := decodedBlockSizes_eq_some_iff.mp sized
    split_ifs at decoded with zero
    rw [read size short encoded, Option.bind_assoc] at decoded
    obtain ⟨digits, spelled, checked⟩ := Option.bind_eq_some_iff.mp decoded
    split_ifs at checked with fits
    · rw [Option.bind_some] at checked
      split_ifs at checked with excess
      cases checked
      obtain ⟨length, value⟩ := uint64To8be_eq_iff.mp ⟨(lt_pow_iff short).mpr ⟨fits, excess⟩, rfl⟩
      refine ⟨digits, mapM_reverseAlphabet_eq_some_iff.mp spelled, ?_, ?_, ?_, value⟩
      · rintro empty
        rw [empty] at length
        exact zero length.symm
      · rwa [length]
      · rwa [length]
    · cases checked
  · rintro ⟨digits, spelled, ne, short, sized, value⟩
    obtain ⟨small, same⟩ := uint64To8be_eq_iff.mpr ⟨rfl, value⟩
    obtain ⟨fits, excess⟩ := (lt_pow_iff short).mp small
    refine ⟨data.length, decodedBlockSizes_eq_some_iff.mpr ⟨short, sized⟩, ?_⟩
    rw [if_neg (by simpa using ne), read _ short sized,
      mapM_reverseAlphabet_eq_some_iff.mpr spelled, Option.bind_some, if_pos fits,
      Option.bind_some, if_neg excess, same]

theorem decodeBlock_eq_some_iff : decodeBlock block = some data ↔
      data ≠ [] ∧ data.length ≤ fullBlockSize ∧ encodeBlock data = block := by
  rw [decodeBlock_eq_some_iff_digits]
  constructor
  · rintro ⟨digits, ⟨small, spelled⟩, ne, short, sized, value⟩
    have count : digits.length = block.length := by rw [← length_map, spelled, length_reverse]
    refine ⟨ne, short, ?_⟩
    rw [encodeBlock_eq short, value, sized,
      (Nat.setInvOn_digitsAppend_ofDigits (by decide) _).1 ⟨count, small⟩, spelled,
      reverse_reverse]
  · rintro ⟨ne, short, rfl⟩
    have written := encodeBlock_eq short
    have bound := uint8beTo64_lt short
    refine ⟨Nat.digitsAppend alphabetSize (encodedBlockSizes.getD data.length 0)
      (uint8beTo64 data), ⟨?_, ?_⟩, ne, short, (length_encodeBlock short).symm, ?_⟩
    · exact fun digit mem => Nat.lt_of_mem_digitsAppend (by decide) _ _ mem
    · rw [written, reverse_reverse]
    · exact ((Nat.setInvOn_digitsAppend_ofDigits (by decide) _).2 bound).symm

/-! ## Strings -/

theorem encode_of_lt (short : data.length < fullBlockSize) :
    encode data = if data = [] then [] else encodeBlock data := by
  rw [encode, Nat.div_eq_of_lt short, encodeBlocks]

theorem encode_append {front : Bytes} (full : front.length = fullBlockSize) (later : Bytes) :
    encode (front ++ later) = encodeBlock front ++ encode later := by
  have count : (front ++ later).length / fullBlockSize = later.length / fullBlockSize + 1 := by
    rw [length_append, full, Nat.add_div_left _ (by decide)]
  rw [encode, count, encodeBlocks, take_left' full, drop_left' full, encode]

theorem blocks_induct {motive : Bytes → Prop}
    (last : ∀ data, data.length < fullBlockSize → motive data)
    (full : ∀ front later, front.length = fullBlockSize → motive later → motive (front ++ later))
    (data : Bytes) : motive data := by
  induction count : data.length / fullBlockSize generalizing data with
  | zero => exact last data (by simpa [div_eq_zero_iff, fullBlockSize] using count)
  | succ count ih =>
    have enough : fullBlockSize ≤ data.length := by
      rw [fullBlockSize] at count ⊢
      omega
    rw [← take_append_drop fullBlockSize data]
    refine full _ _ (length_take_of_le enough) (ih _ ?_)
    rw [length_drop]
    rw [fullBlockSize] at count ⊢
    omega

theorem length_encode (data : Bytes) :
    (encode data).length = fullEncodedBlockSize * (data.length / fullBlockSize) +
      encodedBlockSizes.getD (data.length % fullBlockSize) 0 := by
  induction data using blocks_induct with
  | last data short =>
    rw [encode_of_lt short, Nat.div_eq_of_lt short, Nat.mod_eq_of_lt short]
    split_ifs with empty
    · rw [empty]
      rfl
    · rw [length_encodeBlock short.le, mul_zero, zero_add]
  | full front later full ih =>
    rw [encode_append full, length_append, length_append,
      length_encodeBlock full.le, full, Nat.add_div_left _ (by decide), Nat.add_mod_left,
      Nat.mul_succ]
    rw [show encodedBlockSizes.getD fullBlockSize 0 = fullEncodedBlockSize from rfl]
    omega

theorem decodeBlocks_encode (data : Bytes) :
    decodeBlocks (data.length / fullBlockSize) (encode data) = some data := by
  induction data using blocks_induct with
  | last data short =>
    rw [encode_of_lt short, Nat.div_eq_of_lt short, decodeBlocks]
    by_cases empty : data = []
    · rw [empty]
      rfl
    · have all : ∀ size < 8, encodedBlockSizes.getD size 0 = 0 → size = 0 := by decide
      have written : encodeBlock data ≠ [] := by
        intro nothing
        have size := length_encodeBlock short.le
        rw [nothing] at size
        exact empty (length_eq_zero_iff.mp (all _ short size.symm))
      rw [if_neg empty, if_neg written, decodeBlock_eq_some_iff]
      exact ⟨empty, short.le, rfl⟩
  | full front later full ih =>
    have decoded := decodeBlock_eq_some_iff.mpr
      ⟨ne_nil_of_length_pos (by rw [full]; decide), full.le, rfl⟩
    have size : (encodeBlock front).length = fullEncodedBlockSize := by
      rw [length_encodeBlock full.le, full]
      rfl
    rw [length_append, full, Nat.add_div_left _ (by decide), encode_append full, decodeBlocks,
      take_left' size, drop_left' size, decoded, ih]
    rfl

theorem encode_of_decodeBlocks {count : Nat} (sized : enc.length / fullEncodedBlockSize = count)
    (decoded : decodeBlocks count enc = some data) : encode data = enc := by
  induction count generalizing enc data with
  | zero =>
    have short : enc.length < 11 := by simpa [div_eq_zero_iff, fullEncodedBlockSize] using sized
    rw [decodeBlocks] at decoded
    split_ifs at decoded with empty
    · cases decoded
      exact empty.symm
    · obtain ⟨ne, fits, rfl⟩ := decodeBlock_eq_some_iff.mp decoded
      rw [length_encodeBlock fits] at short
      have last : data.length < fullBlockSize := by
        refine lt_of_le_of_ne fits ?_
        intro full
        rw [full] at short
        exact absurd short (by decide)
      rw [encode_of_lt last, if_neg ne]
  | succ count ih =>
    obtain ⟨front, first, shape⟩ := Option.bind_eq_some_iff.mp decoded
    obtain ⟨later, rest, rfl⟩ := Option.map_eq_some_iff.mp shape
    obtain ⟨-, fits, written⟩ := decodeBlock_eq_some_iff.mp first
    have enough : fullEncodedBlockSize ≤ enc.length := by
      rw [fullEncodedBlockSize] at sized ⊢
      omega
    have full : front.length = fullBlockSize := by
      have size := length_encodeBlock fits
      rw [written, length_take_of_le enough] at size
      have all : ∀ size < 9, fullEncodedBlockSize = encodedBlockSizes.getD size 0 →
        size = fullBlockSize := by decide
      exact all _ (Nat.lt_succ_of_le fits) size
    rw [encode_append full, written, ih ?_ rest, take_append_drop]
    rw [length_drop]
    rw [fullEncodedBlockSize] at sized ⊢
    omega

theorem decode_eq_some_iff : decode enc = some data ↔ encode data = enc := by
  unfold decode
  rw [Option.bind_eq_some_iff]
  constructor
  · rintro ⟨-, -, decoded⟩
    exact encode_of_decodeBlocks rfl decoded
  · rintro rfl
    have all : ∀ size < fullBlockSize, encodedBlockSizes.getD size 0 < fullEncodedBlockSize := by
      decide
    have short := Nat.mod_lt data.length (show 0 < fullBlockSize by decide)
    have last := all _ short
    rw [length_encode, Nat.mul_add_mod, Nat.mod_eq_of_lt last, Nat.mul_add_div (by decide),
      Nat.div_eq_of_lt last]
    exact ⟨_, decodedBlockSizes_eq_some_iff.mpr ⟨short.le, rfl⟩, decodeBlocks_encode data⟩

/-- Decoding inverts encoding, and a text that can be decoded is the one that its bytes encode to.
-/
theorem encode_decode_inverse : (∀ data, decode (encode data) = some data) ∧
      ∀ enc data, decode enc = some data → encode data = enc :=
  ⟨fun _ => decode_eq_some_iff.mpr rfl, fun _ _ => decode_eq_some_iff.mp⟩

theorem decode_encode_three : decode (encode [1, 2, 3]) = some [1, 2, 3] :=
  encode_decode_inverse.1 [1, 2, 3]

/-! ## Addresses -/

variable {cnFastHash}

@[simp]
theorem length_checksum (buf : Bytes) : (checksum cnFastHash buf).length = addrChecksumSize := by
  rw [checksum, List.length_take, (cnFastHash buf).property]
  rfl

theorem decodeAddr_eq_some_iff {addr : Bytes} {tag : Nat} :
    decodeAddr cnFastHash addr = some (tag, data) ↔
      ∃ kept, kept ≠ [] ∧ readVarint kept = some (tag, data) ∧
        encode (kept ++ checksum cnFastHash kept) = addr := by
  unfold decodeAddr
  rw [Option.bind_eq_some_iff]
  constructor
  · rintro ⟨addrData, decoded, checked⟩
    dsimp only at checked
    split_ifs at checked with short wrong
    refine ⟨_, ?_, checked, ?_⟩
    · rw [← length_pos_iff, List.length_take]
      omega
    · rw [not_not.mp wrong, take_append_drop]
      exact decode_eq_some_iff.mp decoded
  · rintro ⟨kept, ne, read, written⟩
    have pos := length_pos_iff.mpr ne
    refine ⟨_, decode_eq_some_iff.mpr written, ?_⟩
    rw [length_append, length_checksum, if_neg (by omega), Nat.add_sub_cancel]
    rw [take_left, drop_left, if_neg (not_not.mpr rfl), read]

/-- A tag and its data are read back; the only other texts for them end within the tag. -/
theorem encodeAddr_decodeAddr_iff (cnFastHash : Bytes → Pod) : (∀ tag data, tag < 2 ^ 64 →
      decodeAddr cnFastHash (encodeAddr cnFastHash tag data) = some (tag, data)) ∧
    ∀ addr tag data, decodeAddr cnFastHash addr = some (tag, data) →
      (encodeAddr cnFastHash tag data = addr ↔ ∃ addrData, decode addr = some addrData ∧
        ∃ byte ∈ addrData.take (addrData.length - addrChecksumSize), byte.toNat < 128) := by
  constructor
  · intro tag data small
    obtain ⟨byte, member, -⟩ := exists_lt_of_writeVarint tag
    refine decodeAddr_eq_some_iff.mpr ⟨writeVarint tag ++ data, ?_, ?_, rfl⟩
    · exact ne_nil_of_mem (mem_append_left data member)
    · exact readVarint_writeVarint data small
  · intro addr tag data accepted
    obtain ⟨kept, -, read, rfl⟩ := decodeAddr_eq_some_iff.mp accepted
    have payload : ∀ addrData, decode (encode (kept ++ checksum cnFastHash kept)) =
        some addrData → addrData.take (addrData.length - addrChecksumSize) = kept := by
      intro addrData decoded
      rw [decode_eq_some_iff.mpr rfl] at decoded
      cases decoded
      rw [length_append, length_checksum, Nat.add_sub_cancel, take_left]
    constructor
    · intro same
      refine ⟨_, decode_eq_some_iff.mpr rfl, ?_⟩
      rw [payload _ (decode_eq_some_iff.mpr rfl)]
      obtain ⟨byte, member, low⟩ := exists_lt_of_writeVarint tag
      have written := payload _ (decode_eq_some_iff.mpr same)
      rw [length_append, length_checksum, Nat.add_sub_cancel, take_left] at written
      rw [← written]
      exact ⟨byte, mem_append_left data member, low⟩
    · rintro ⟨addrData, decoded, ends⟩
      rw [payload _ decoded] at ends
      rw [encodeAddr, ← eq_writeVarint_of_readVarint read ends]

def zeroHash (_ : Bytes) : Pod :=
  ⟨List.replicate 32 0, rfl⟩

theorem decodeAddr_encodeAddr_sample :
    decodeAddr zeroHash (encodeAddr zeroHash 18 [1, 2, 3]) = some (18, [1, 2, 3]) :=
  (encodeAddr_decodeAddr_iff zeroHash).1 18 [1, 2, 3] (by decide)

def cutOffAddress : Bytes :=
  encode [128, 0, 0, 0, 0]

theorem decodeAddr_cutOff : decodeAddr zeroHash cutOffAddress = some (0, []) ∧
      encodeAddr zeroHash 0 [] ≠ cutOffAddress := by
  refine ⟨by decide +kernel, ?_⟩
  rw [encodeAddr, writeVarint_of_lt (by decide)]
  decide +kernel

/-! ## The faucet -/

/-- The test of `POST /faucet`. -/
def faucetAccepts (address : Bytes) : Bool :=
  address.head? = some 77 ∧ 90 ≤ address.length

def mainnetPrefixes : List Nat := [110, 111, 112]

def testnetPrefixes : List Nat := [120, 121, 122]

def stagenetPrefixes : List Nat := [130, 131, 132]

theorem getLast?_of_length {digits : List Nat} {places : Nat} (length : digits.length = places + 1)
    (small : ∀ digit ∈ digits, digit < alphabetSize) :
    digits.getLast? = some (Nat.ofDigits alphabetSize digits / alphabetSize ^ places) := by
  obtain ⟨front, last, rfl⟩ := (eq_nil_or_concat' digits).resolve_left
    (ne_nil_of_length_eq_add_one length)
  have places : front.length = places := by simpa using length
  have below := Nat.ofDigits_lt_base_pow_length (by decide : 1 < alphabetSize)
    fun digit mem => small digit (mem_append_left [last] mem)
  rw [getLast?_concat, Nat.ofDigits_append, Nat.ofDigits_singleton, ← places,
    Nat.add_mul_div_left _ _ (by simp [alphabetSize]), Nat.div_eq_of_lt below, zero_add]

theorem head?_encodeBlock {block : Bytes} (full : block.length = fullBlockSize) :
    (encodeBlock block).head? = some (letter (uint8beTo64 block / alphabetSize ^ 10)) := by
  have small := uint8beTo64_lt full.le
  have length := Nat.length_digitsAppend (by decide) _ small
  have value := (Nat.setInvOn_digitsAppend_ofDigits (by decide) _).2 small
  rw [encodeBlock_eq full.le, head?_reverse, getLast?_map]
  rw [full] at length value ⊢
  rw [getLast?_of_length length fun _ => Nat.lt_of_mem_digitsAppend (by decide) _ _, value]
  rfl

theorem uint8beTo64_cons (byte : UInt8) (later : Bytes) :
    uint8beTo64 (byte :: later) = uint8beTo64 later + 256 ^ later.length * byte.toNat := by
  have value : ∀ bytes : Bytes, ofLittleEndian (bytes ++ [byte]) =
      ofLittleEndian bytes + 256 ^ bytes.length * byte.toNat := by
    intro bytes
    induction bytes with
    | nil => simp [ofLittleEndian]
    | cons first bytes ih =>
      rw [cons_append, ofLittleEndian, ofLittleEndian, ih, length_cons]
      ring
  rw [uint8beTo64, reverse_cons, value, length_reverse]
  rfl

/-- The first letter comes from the first eight bytes. -/
theorem head?_encode {byte : UInt8} {data : Bytes} (long : 7 ≤ data.length) :
    ∃ later < 256 ^ 7, (encode (byte :: data)).head? =
      some (letter ((later + 256 ^ 7 * byte.toNat) / alphabetSize ^ 10)) := by
  have length : (data.take 7).length = 7 := length_take_of_le long
  have full : (byte :: data.take 7).length = fullBlockSize := by
    rw [length_cons, length]
    rfl
  have below := ofLittleEndian_lt (data.take 7).reverse
  rw [length_reverse, length] at below
  refine ⟨uint8beTo64 (data.take 7), below, ?_⟩
  rw [← take_append_drop 7 data, ← cons_append, encode_append full, take_append_drop,
    head?_append, head?_encodeBlock full, uint8beTo64_cons, length]
  rfl

theorem head?_encodeAddr (cnFastHash : Bytes → Pod) {tag : Nat} {data : Bytes} (byte : tag < 256)
    (long : 64 ≤ data.length) : ∃ rest < 256 ^ 7, (encodeAddr cnFastHash tag data).head? =
      some (letter ((rest + 256 ^ 7 * tag) / alphabetSize ^ 10)) := by
  have value : tag.toUInt8.toNat = tag := by simpa using byte
  obtain ⟨later, tagged⟩ : ∃ later, writeVarint tag = tag.toUInt8 :: later := by
    by_cases last : tag < 128
    · exact ⟨[], writeVarint_of_lt last⟩
    · rw [writeVarint_of_le (by omega), show tag % 128 + 128 = tag by omega]
      exact ⟨_, rfl⟩
  rw [encodeAddr, tagged, cons_append, cons_append]
  obtain ⟨rest, below, head⟩ := @head?_encode tag.toUInt8
    (later ++ data ++ checksum cnFastHash (tag.toUInt8 :: (later ++ data))) (by simp; omega)
  rw [value] at head
  exact ⟨rest, below, head⟩

theorem length_encodeAddr_ge (cnFastHash : Bytes → Pod) (tag : Nat) {data : Bytes}
    (long : 64 ≤ data.length) : 90 ≤ (encodeAddr cnFastHash tag data).length := by
  have ne : 0 < (writeVarint tag).length := by
    rw [writeVarint]
    split <;> simp
  rw [encodeAddr, length_encode]
  have sizes : ∀ rest < 8, 5 ≤ rest → 7 ≤ encodedBlockSizes.getD rest 0 := by decide
  have length : (checksum cnFastHash (writeVarint tag ++ data)).length = 4 :=
    length_checksum _
  rw [length_append, length_append, length]
  have := sizes (((writeVarint tag).length + data.length + 4) % 8) (by omega)
  simp only [fullBlockSize, fullEncodedBlockSize]
  omega

def addressData (spendKey viewKey : Pod) (paymentId : {bytes : Bytes // bytes.length = 8}) :
    List Bytes :=
  [spendKey.val ++ viewKey.val, spendKey.val ++ viewKey.val ++ paymentId.val]

/-- Exactly the addresses of the test network pass. -/
theorem faucetAccepts_encodeAddr (cnFastHash : Bytes → Pod) (spendKey viewKey : Pod)
    (paymentId : {bytes : Bytes // bytes.length = 8}) :
    (∀ tag ∈ testnetPrefixes, ∀ data ∈ addressData spendKey viewKey paymentId,
      (encodeAddr cnFastHash tag data).head? = some 77 ∧
        90 ≤ (encodeAddr cnFastHash tag data).length ∧
        faucetAccepts (encodeAddr cnFastHash tag data) = true) ∧
    ∀ tag ∈ mainnetPrefixes ++ stagenetPrefixes, ∀ data ∈ addressData spendKey viewKey paymentId,
      (encodeAddr cnFastHash tag data).head? ≠ some 77 ∧
        faucetAccepts (encodeAddr cnFastHash tag data) = false := by
  have long : ∀ data ∈ addressData spendKey viewKey paymentId, 64 ≤ data.length := by
    simp [addressData, spendKey.property, viewKey.property]
    omega
  constructor
  · intro tag mem data isData
    simp only [testnetPrefixes, mem_cons, not_mem_nil, or_false] at mem
    have ge := length_encodeAddr_ge cnFastHash tag (long data isData)
    obtain ⟨rest, below, head⟩ :=
      head?_encodeAddr cnFastHash (by omega : tag < 256) (long data isData)
    have digit : (rest + 256 ^ 7 * tag) / alphabetSize ^ 10 = 20 := by
      simp only [alphabetSize]
      omega
    rw [digit, show letter 20 = 77 by decide] at head
    exact ⟨head, ge, by simp [faucetAccepts, head, ge]⟩
  · intro tag mem data isData
    simp only [mainnetPrefixes, stagenetPrefixes, mem_append, mem_cons, not_mem_nil,
      or_false] at mem
    obtain ⟨rest, below, head⟩ :=
      head?_encodeAddr cnFastHash (by omega : tag < 256) (long data isData)
    have digit : (rest + 256 ^ 7 * tag) / alphabetSize ^ 10 ∈ [18, 21, 22] := by
      simp only [alphabetSize, mem_cons, not_mem_nil, or_false]
      omega
    have letters : ∀ digit ∈ [18, 21, 22], letter digit ≠ 77 := by decide
    have other : (encodeAddr cnFastHash tag data).head? ≠ some 77 := by
      rw [head]
      simpa using letters _ digit
    exact ⟨other, by simp [faucetAccepts, other]⟩

end Base58

/-! ## Seed words -/

namespace ElectrumWords

/-- The digits of a value to the base of the list, each added to the word before. -/
def encodeWords (wordListLength value : Nat) : Nat × Nat × Nat :=
  let w1 := value % wordListLength
  let w2 := (value / wordListLength + w1) % wordListLength
  let w3 := (value / wordListLength / wordListLength + w2) % wordListLength
  (w1, w2, w3)

/-- `w[0]`, computed in 32 bits. -/
def decodedValue (wordListLength : Nat) : Nat × Nat × Nat → Nat
  | (w1, w2, w3) =>
      (w1 + wordListLength * ((wordListLength - w1 + w2) % wordListLength) +
        wordListLength * wordListLength * ((wordListLength - w2 + w3) % wordListLength)) % 2 ^ 32

def decodeWords (wordListLength : Nat) (words : Nat × Nat × Nat) : Option Nat :=
  let w0 := decodedValue wordListLength words
  if w0 % wordListLength = words.1 then some w0 else none

variable {n word value w1 : Nat} {words : Nat × Nat × Nat}

theorem mod_difference (lt : word < n) : (n - word + (value + word) % n) % n = value % n := by
  rw [Nat.add_mod_mod, show n - word + (value + word) = value + n by omega, Nat.add_mod_right]

theorem add_mod_difference {next : Nat} (lt : word < n) (below : next < n) :
    ((n - word + next) % n + word) % n = next := by
  rw [Nat.mod_add_mod, show n - word + next + word = next + n by omega, Nat.add_mod_right,
    Nat.mod_eq_of_lt below]

theorem decodeWords_eq_some (same : decodedValue n words % n = words.1) :
    decodeWords n words = some (decodedValue n words) :=
  if_pos same

theorem decodeWords_eq_none
    (other : decodedValue n words % n ≠ words.1) : decodeWords n words = none :=
  if_neg other

/-- What wraps around is off by 490 modulo 1626. -/
theorem total_lt_of_mod_eq {x y : Nat} (lt : w1 < 1626) (small : x < 1626) (below : y < 1626)
    (same : (w1 + 1626 * x + 1626 * 1626 * y) % 2 ^ 32 % 1626 = w1) :
    w1 + 1626 * x + 1626 * 1626 * y < 2 ^ 32 := by
  by_contra wrapped
  have once : (w1 + 1626 * x + 1626 * 1626 * y) % 2 ^ 32 + 490 =
      w1 + 1626 * (x + 1626 * y - 2641431) := by omega
  have remainders := congrArg (· % 1626) once
  simp at remainders
  omega

theorem decodeWords_encodeWords (small : value < 2 ^ 32) :
    decodeWords 1626 (encodeWords 1626 value) = some value := by
  have top : value / 1626 / 1626 % 1626 = value / 1626 / 1626 := by omega
  have decoded : decodedValue 1626 (encodeWords 1626 value) = value := by
    simp only [encodeWords, decodedValue]
    rw [mod_difference (by omega), mod_difference (by omega), top]
    omega
  have same : decodedValue 1626 (encodeWords 1626 value) % 1626 = (encodeWords 1626 value).1 := by
    rw [decoded]
    rfl
  rw [decodeWords_eq_some same, decoded]

theorem encodeWords_decodedValue {w2 w3 : Nat} (lt : w1 < 1626) (inside2 : w2 < 1626)
    (inside3 : w3 < 1626) (same : decodedValue 1626 (w1, w2, w3) % 1626 = w1) :
    encodeWords 1626 (decodedValue 1626 (w1, w2, w3)) = (w1, w2, w3) := by
  have second := add_mod_difference lt inside2
  have third := add_mod_difference inside2 inside3
  have small : (1626 - w1 + w2) % 1626 < 1626 := Nat.mod_lt _ (by omega)
  have below : (1626 - w2 + w3) % 1626 < 1626 := Nat.mod_lt _ (by omega)
  rw [decodedValue] at same ⊢
  rw [Nat.mod_eq_of_lt (total_lt_of_mod_eq lt small below same), encodeWords]
  generalize (1626 - w1 + w2) % 1626 = x at *
  generalize (1626 - w2 + w3) % 1626 = y at *
  have first : (w1 + 1626 * x + 1626 * 1626 * y) % 1626 = w1 := by omega
  have quotient : (w1 + 1626 * x + 1626 * 1626 * y) / 1626 = x + 1626 * y := by omega
  have quotient2 : (x + 1626 * y) / 1626 = y := by omega
  simp only [first, quotient, quotient2, Prod.mk.injEq, true_and]
  omega

/-- The words of a list of 1626 code exactly the values of 32 bits. -/
theorem decodeWords_encodeWords_spec :
    (∀ value : UInt32, decodeWords 1626 (encodeWords 1626 value.toNat) = some value.toNat) ∧
      ∀ w1 w2 w3 : Fin 1626, decodeWords 1626 (w1.val, w2.val, w3.val) = none ∨
        ∃ value : UInt32, decodeWords 1626 (w1.val, w2.val, w3.val) = some value.toNat ∧
          encodeWords 1626 value.toNat = (w1.val, w2.val, w3.val) := by
  refine ⟨fun value => decodeWords_encodeWords value.toNat_lt, fun w1 w2 w3 => ?_⟩
  by_cases same : decodedValue 1626 (w1.val, w2.val, w3.val) % 1626 = w1
  · have value : (UInt32.ofNat (decodedValue 1626 (w1.val, w2.val, w3.val))).toNat =
        decodedValue 1626 (w1.val, w2.val, w3.val) := by
      simp [decodedValue]
    refine .inr ⟨UInt32.ofNat (decodedValue 1626 (w1.val, w2.val, w3.val)), ?_, ?_⟩
    · rw [value]
      exact decodeWords_eq_some same
    · rw [value]
      exact encodeWords_decodedValue w1.isLt w2.isLt w3.isLt same
  · exact .inl (decodeWords_eq_none same)

end ElectrumWords

end LodeChain

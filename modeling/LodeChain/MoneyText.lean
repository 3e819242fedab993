import Mathlib.Data.List.DropRight
import Mathlib.Tactic.FieldSimp
import Mathlib.Tactic.NormNum
import Mathlib.Tactic.Ring

/-!
# Amounts as text

`print_money` writes a 64-bit amount as a decimal number with a fixed number of places behind the
point, and `parse_amount` reads one. White space around a number and zeros behind the last place are
accepted, a number that does not fit is not.
-/

namespace LodeChain

open List

def cryptonoteDisplayDecimalPoint : Nat := 8

def isSpace (char : Char) : Bool :=
  [' ', '\t', '\n', '\x0b', '\x0c', '\r'].contains char

/-- `boost::algorithm::trim`, relied on to drop the white space of the classic locale at both ends.
-/
def trim (str : List Char) : List Char :=
  (str.rdropWhile isSpace).dropWhile isSpace

/-- `boost::lexical_cast` of digits to 64 bits, relied on to refuse an empty text and a larger
number. -/
def lexicalCast (digits : List Char) : Option Nat :=
  let value := Nat.ofDigitChars 10 digits 0
  if digits = [] ∨ 2 ^ 64 ≤ value then none else some value

def getXtypeFromString (strId : List Char) : Option Nat :=
  if strId.all Char.isDigit then lexicalCast strId else none

def stripZeros (decimalPoint : Nat) : Nat → List Char → List Char × Nat
  | 0, str => (str, 0)
  | fractionSize + 1, str =>
    if decimalPoint < fractionSize + 1 ∧ str.getLast? = some '0' then
      stripZeros decimalPoint fractionSize str.dropLast
    else (str, fractionSize + 1)

def parseDigits (decimalPoint : Nat) (str : List Char) (fractionSize : Nat) : Option Nat :=
  if str = [] then none
  else if fractionSize < decimalPoint then
    getXtypeFromString (str ++ replicate (decimalPoint - fractionSize) '0')
  else getXtypeFromString str

def parseAmount (decimalPoint : Nat) (str : List Char) : Option Nat :=
  let strAmount := trim str
  match strAmount.idxOf? '.' with
  | none => parseDigits decimalPoint strAmount 0
  | some pointIndex =>
    let stripped := stripZeros decimalPoint (strAmount.length - pointIndex - 1) strAmount
    if decimalPoint < stripped.2 then none
    else parseDigits decimalPoint (stripped.1.eraseIdx pointIndex) stripped.2

def insertMoneyDecimalPoint (decimalPoint : Nat) (str : List Char) : List Char :=
  let padded := replicate (decimalPoint + 1 - str.length) '0' ++ str
  if 0 < decimalPoint then padded.insertIdx (padded.length - decimalPoint) '.'
  else padded

def printMoney (decimalPoint amount : Nat) : List Char :=
  insertMoneyDecimalPoint decimalPoint (Nat.toDigits 10 amount)

/-! ## Decimal numbers -/

/-- A decimal number with these digits around the point; either may be missing but not both, and
without a fraction the point too. -/
structure Spells (text whole fraction : List Char) : Prop where
  whole_digits : whole.all Char.isDigit = true
  fraction_digits : fraction.all Char.isDigit = true
  nonempty : whole ++ fraction ≠ []
  text_eq : text = whole ++ '.' :: fraction ∨ text = whole ∧ fraction = []

def decimalValue (whole fraction : List Char) : ℚ :=
  Nat.ofDigitChars 10 whole 0 + Nat.ofDigitChars 10 fraction 0 / 10 ^ fraction.length

def withoutZeros (fraction : List Char) : List Char :=
  fraction.rdropWhile (· = '0')

theorem ofDigitChars_eq (digits : List Char) (init : Nat) :
    Nat.ofDigitChars 10 digits init = init * 10 ^ digits.length + Nat.ofDigitChars 10 digits 0 := by
  induction digits generalizing init with
  | nil => simp
  | cons digit digits ih =>
    rw [Nat.ofDigitChars_cons, Nat.ofDigitChars_cons, ih, ih (10 * 0 + _), length_cons]
    ring

theorem ofDigitChars_concat (digits more : List Char) :
    Nat.ofDigitChars 10 (digits ++ more) 0 = Nat.ofDigitChars 10 digits 0 * 10 ^ more.length +
        Nat.ofDigitChars 10 more 0 := by
  rw [Nat.ofDigitChars_append, ofDigitChars_eq]

theorem ofDigitChars_replicate_zero (zeros : Nat) :
    Nat.ofDigitChars 10 (replicate zeros '0') 0 = 0 := by
  induction zeros with
  | zero => rfl
  | succ zeros ih => simp [replicate_succ, Nat.ofDigitChars_cons, ih]

theorem decimalValue_append_zeros (whole fraction : List Char) (zeros : Nat) :
    decimalValue whole (fraction ++ replicate zeros '0') = decimalValue whole fraction := by
  rw [decimalValue, decimalValue, ofDigitChars_concat, ofDigitChars_replicate_zero,
    length_append]
  push_cast
  field_simp
  ring

theorem ofDigitChars_padded {whole fraction : List Char} {decimalPoint : Nat}
    (short : fraction.length ≤ decimalPoint) : (Nat.ofDigitChars 10 (whole ++ fraction ++
        replicate (decimalPoint - fraction.length) '0') 0 : ℚ) =
      decimalValue whole fraction * 10 ^ decimalPoint := by
  obtain ⟨missing, rfl⟩ := Nat.exists_eq_add_of_le short
  rw [ofDigitChars_concat, ofDigitChars_concat, ofDigitChars_replicate_zero,
    decimalValue, length_replicate, Nat.add_sub_cancel_left]
  push_cast
  field_simp
  ring

/-! ## Reading -/

theorem stripZeros_eq (decimalPoint : Nat) (front fraction : List Char) :
    ∃ kept zeros, fraction = kept ++ replicate zeros '0' ∧
      stripZeros decimalPoint fraction.length (front ++ '.' :: fraction) =
        (front ++ '.' :: kept, kept.length) ∧ (0 < zeros → decimalPoint ≤ kept.length) ∧
      (decimalPoint < kept.length → withoutZeros kept = kept) := by
  induction fraction using reverseRecOn with
  | nil => exact ⟨[], 0, rfl, rfl, by simp, by simp⟩
  | append_singleton fraction last ih =>
    have ends : (front ++ '.' :: (fraction ++ [last])).getLast? = some last := by
      rw [← cons_append, ← append_assoc, getLast?_concat]
    have shorter : (front ++ '.' :: (fraction ++ [last])).dropLast = front ++ '.' :: fraction := by
      rw [← cons_append, ← append_assoc, dropLast_concat]
    rw [length_append, length_singleton, stripZeros, ends, shorter]
    by_cases strips : decimalPoint < fraction.length + 1 ∧ some last = some '0'
    · obtain ⟨kept, zeros, rfl, stripped, reaches, plain⟩ := ih
      obtain rfl : last = '0' := Option.some.inj strips.2
      refine ⟨kept, zeros + 1, ?_, ?_, ?_, plain⟩
      · rw [append_assoc, replicate_succ']
      · rw [if_pos strips, stripped]
      · intro _
        rcases eq_zero_or_pos zeros with rfl | more
        · have := strips.1
          simp at this
          omega
        · exact reaches more
    · refine ⟨fraction ++ [last], 0, ?_, ?_, by simp, ?_⟩
      · rw [replicate_zero, append_nil]
      · rw [if_neg strips, length_append, length_singleton]
      · intro long
        rw [length_append] at long
        rw [withoutZeros, rdropWhile_concat_neg]
        simp
        intro zero
        exact strips ⟨long, by rw [zero]⟩

theorem withoutZeros_append_zeros (fraction : List Char) (zeros : Nat) :
    withoutZeros (fraction ++ replicate zeros '0') = withoutZeros fraction := by
  induction zeros with
  | zero => rw [replicate_zero, append_nil]
  | succ zeros ih =>
    rw [replicate_succ', ← append_assoc, withoutZeros, rdropWhile_concat_pos _ _ _ (by simp)]
    exact ih

theorem all_isDigit_replicate_zero (zeros : Nat) :
    (replicate zeros '0').all Char.isDigit = true := by
  rw [all_eq_true]
  intro char mem
  rw [eq_of_mem_replicate mem]
  rfl

theorem parseDigits_eq_some_iff {decimalPoint amount : Nat}
    {whole fraction : List Char} (short : fraction.length ≤ decimalPoint) :
    parseDigits decimalPoint (whole ++ fraction) fraction.length = some amount ↔
      whole ++ fraction ≠ [] ∧ whole.all Char.isDigit = true ∧ fraction.all Char.isDigit = true ∧
        (amount : ℚ) = decimalValue whole fraction * 10 ^ decimalPoint ∧
        decimalValue whole fraction * 10 ^ decimalPoint < 2 ^ 64 := by
  have padded : parseDigits decimalPoint (whole ++ fraction) fraction.length =
      if whole ++ fraction = [] then none
      else getXtypeFromString (whole ++ fraction ++
        replicate (decimalPoint - fraction.length) '0') := by
    rw [parseDigits]
    split_ifs with empty less
    · rfl
    · rfl
    · rw [Nat.sub_eq_zero_of_le (not_lt.mp less), replicate_zero, append_nil]
  have zeros := all_isDigit_replicate_zero (decimalPoint - fraction.length)
  rw [padded, ← ofDigitChars_padded short]
  generalize replicate (decimalPoint - fraction.length) '0' = padding at zeros ⊢
  by_cases empty : whole ++ fraction = []
  · simp [empty]
  · have filled : whole ++ fraction ++ padding ≠ [] := by
      simp only [ne_eq, append_eq_nil_iff, not_and] at empty ⊢
      exact fun both => absurd both.2 (empty both.1)
    rw [if_neg empty, getXtypeFromString, all_append, all_append, zeros, Bool.and_true, lexicalCast]
    by_cases digits : (whole.all Char.isDigit && fraction.all Char.isDigit) = true
    · rw [if_pos digits]
      rw [Bool.and_eq_true] at digits
      generalize Nat.ofDigitChars 10 (whole ++ fraction ++ padding) 0 = value
      have small : (value : ℚ) < 2 ^ 64 ↔ value < 2 ^ 64 := by exact_mod_cast Iff.rfl
      simp only [filled, false_or, digits, ne_eq, empty, not_false_eq_true, true_and,
        Nat.cast_inj, small]
      split_ifs with large
      · exact iff_of_false (by simp) fun both => absurd both.2 (not_lt.mpr large)
      · rw [Option.some.injEq]
        exact ⟨fun same => ⟨same.symm, not_le.mp large⟩, fun both => both.1.symm⟩
    · rw [if_neg digits]
      rw [Bool.and_eq_true] at digits
      simp only [reduceCtorEq, false_iff]
      exact fun all => digits ⟨all.2.1, all.2.2.1⟩

variable {digits whole kept text : List Char} {α : Type*} {zeros amount : Nat}

theorem not_mem_of_digits (all : digits.all Char.isDigit = true) : '.' ∉ digits := by
  intro mem
  have := all_eq_true.mp all '.' mem
  cases this

variable {front fraction : List Char} {decimalPoint : Nat}

theorem idxOf?_point [BEq α] [LawfulBEq α] {point : α} {front back : List α}
    (before : point ∉ front) : (front ++ point :: back).idxOf? point = some front.length := by
  induction front with
  | nil => simp [idxOf?_cons]
  | cons char front ih =>
    rw [mem_cons, not_or] at before
    rw [cons_append, idxOf?_cons, ih before.2]
    simp [Ne.symm before.1]

theorem Spells.of_point (before : '.' ∉ front)
    (spells : Spells (front ++ '.' :: fraction) whole digits) :
    whole = front ∧ digits = fraction := by
  have noPoint := not_mem_of_digits spells.whole_digits
  rcases spells.text_eq with same | ⟨same, -⟩
  · have points := congrArg (idxOf? '.') same
    rw [idxOf?_point before, idxOf?_point noPoint, Option.some.injEq] at points
    obtain ⟨fronts, rest⟩ := append_inj same points
    exact ⟨fronts.symm, (cons.inj rest).2.symm⟩
  · exact absurd (same ▸ by simp) noPoint

theorem spells_point_iff (enough : 0 < zeros → kept ≠ []) :
    Spells (front ++ '.' :: (kept ++ replicate zeros '0')) front
        (kept ++ replicate zeros '0') ↔ front ++ kept ≠ [] ∧ front.all Char.isDigit = true ∧
        kept.all Char.isDigit = true := by
  constructor
  · rintro ⟨wholeDigits, fractionDigits, ne, -⟩
    rw [all_append, Bool.and_eq_true] at fractionDigits
    refine ⟨?_, wholeDigits, fractionDigits.1⟩
    rcases eq_zero_or_pos zeros with rfl | some_
    · simpa using ne
    · exact append_ne_nil_of_right_ne_nil _ (enough some_)
  · rintro ⟨ne, wholeDigits, keptDigits⟩
    refine ⟨wholeDigits, ?_, ?_, .inl rfl⟩
    · rw [all_append, keptDigits, all_isDigit_replicate_zero]
      rfl
    · rw [← append_assoc]
      exact append_ne_nil_of_left_ne_nil ne _

theorem exists_spells_point_iff (before : '.' ∉ front) :
    (∃ whole digits, Spells (front ++ '.' :: (kept ++ replicate zeros '0')) whole digits ∧
        (withoutZeros digits).length ≤ decimalPoint ∧
        (amount : ℚ) = decimalValue whole digits * 10 ^ decimalPoint ∧
        decimalValue whole digits * 10 ^ decimalPoint < 2 ^ 64) ↔
      Spells (front ++ '.' :: (kept ++ replicate zeros '0')) front
          (kept ++ replicate zeros '0') ∧ (withoutZeros kept).length ≤ decimalPoint ∧
        (amount : ℚ) = decimalValue front kept * 10 ^ decimalPoint ∧
        decimalValue front kept * 10 ^ decimalPoint < 2 ^ 64 := by
  rw [← withoutZeros_append_zeros kept zeros, ← decimalValue_append_zeros front kept zeros]
  constructor
  · rintro ⟨whole, digits, spells, rest⟩
    obtain ⟨rfl, rfl⟩ := spells.of_point before
    exact ⟨spells, rest⟩
  · exact fun both => ⟨_, _, both⟩

theorem parseAmount_eq_some_iff (pos : 0 < decimalPoint) (str : List Char) (amount : Nat) :
    parseAmount decimalPoint str = some amount ↔
      ∃ whole fraction, Spells (trim str) whole fraction ∧
        (withoutZeros fraction).length ≤ decimalPoint ∧
        (amount : ℚ) = decimalValue whole fraction * 10 ^ decimalPoint ∧
        decimalValue whole fraction * 10 ^ decimalPoint < 2 ^ 64 := by
  unfold parseAmount
  dsimp only
  generalize trim str = text
  by_cases point : '.' ∈ text
  · obtain ⟨front, fraction, rfl, before⟩ := eq_append_cons_of_mem point
    obtain ⟨kept, zeros, rfl, stripped, reaches, plain⟩ := stripZeros_eq decimalPoint front fraction
    have size : (front ++ '.' :: (kept ++ replicate zeros '0')).length -
        front.length - 1 = (kept ++ replicate zeros '0').length := by
      simp
    have erased : (front ++ '.' :: kept).eraseIdx front.length = front ++ kept := by
      simp [eraseIdx_append_of_length_le]
    rw [idxOf?_point before]
    simp only [size, stripped, erased]
    rw [exists_spells_point_iff before]
    by_cases long : decimalPoint < kept.length
    · rw [if_pos long, plain long]
      exact iff_of_false (by simp) fun all => absurd all.2.1 (not_le.mpr long)
    · have short := (List.rdropWhile_prefix (· = '0') kept).length_le.trans (not_lt.mp long)
      have enough : 0 < zeros → kept ≠ [] := fun some_ =>
        length_pos_iff.mp (pos.trans_le (reaches some_))
      rw [if_neg long, parseDigits_eq_some_iff (not_lt.mp long), spells_point_iff enough]
      tauto
  · have missing : text.idxOf? '.' = none := idxOf?_eq_none_iff.mpr point
    have digits := @parseDigits_eq_some_iff decimalPoint amount text [] (Nat.zero_le _)
    rw [append_nil, length_nil] at digits
    rw [missing]
    simp only [digits]
    constructor
    · rintro ⟨ne, all, -, value⟩
      exact ⟨text, [], ⟨all, rfl, by simpa using ne, .inr ⟨rfl, rfl⟩⟩, Nat.zero_le _, value⟩
    · rintro ⟨whole, fraction, spells, -, value⟩
      rcases spells.text_eq with same | ⟨rfl, rfl⟩
      · exact absurd (by simp [same]) point
      · exact ⟨by simpa using spells.nonempty, spells.whole_digits, rfl, value⟩

/-! ## Writing -/

theorem isSpace_of_isDigit {char : Char} (digit : char.isDigit = true) : isSpace char = false := by
  by_contra space
  rw [Bool.not_eq_false, isSpace, contains_iff_mem] at space
  simp at space
  rcases space with rfl | rfl | rfl | rfl | rfl | rfl <;> exact absurd digit (by decide)

theorem trim_eq_self (dark : ∀ char ∈ text, isSpace char = false) : trim text = text := by
  have back : text.rdropWhile isSpace = text := by
    rw [rdropWhile_eq_self_iff]
    intro ne
    simp [dark _]
  rw [trim, back]
  cases text with
  | nil => rfl
  | cons char text => exact dropWhile_cons_of_neg (by simp [dark char])

theorem Spells.trim_eq (spells : Spells text whole fraction) : trim text = text := by
  refine trim_eq_self ?_
  have wholeDigits := all_eq_true.mp spells.whole_digits
  have fractionDigits := all_eq_true.mp spells.fraction_digits
  intro char mem
  rcases spells.text_eq with rfl | ⟨rfl, -⟩
  · rcases mem_append.mp mem with front | back
    · exact isSpace_of_isDigit (wholeDigits char front)
    · rcases mem_cons.mp back with rfl | inFraction
      · rfl
      · exact isSpace_of_isDigit (fractionDigits char inFraction)
  · exact isSpace_of_isDigit (wholeDigits char mem)

theorem insertIdx_length_append (front back : List α) (entry : α) :
    (front ++ back).insertIdx front.length entry = front ++ entry :: back := by
  induction front with
  | nil => rfl
  | cons first front ih => rw [cons_append, length_cons, insertIdx_succ_cons, ih, cons_append]

theorem spells_printMoney (pos : 0 < decimalPoint) (amount : Nat) :
    ∃ whole fraction, Spells (printMoney decimalPoint amount) whole fraction ∧
      fraction.length = decimalPoint ∧
      decimalValue whole fraction * 10 ^ decimalPoint = amount := by
  let zeros := replicate (decimalPoint + 1 - (Nat.toDigits 10 amount).length) '0'
  have length : decimalPoint + 1 ≤ (zeros ++ Nat.toDigits 10 amount).length := by
    rw [length_append, length_replicate]
    omega
  have digits : (zeros ++ Nat.toDigits 10 amount).all Char.isDigit = true := by
    rw [all_append, all_isDigit_replicate_zero, Bool.true_and, all_eq_true]
    exact fun char mem => Nat.isDigit_of_mem_toDigits (by decide) (by decide) mem
  have value : Nat.ofDigitChars 10 (zeros ++ Nat.toDigits 10 amount) 0 = amount := by
    rw [ofDigitChars_concat, ofDigitChars_replicate_zero, zero_mul, zero_add,
      Nat.ofDigitChars_toDigits (by decide) (by decide)]
  have printed : printMoney decimalPoint amount = (zeros ++ Nat.toDigits 10 amount).insertIdx
        ((zeros ++ Nat.toDigits 10 amount).length - decimalPoint) '.' := by
    rw [printMoney, insertMoneyDecimalPoint, if_pos pos]
  rw [printed]
  generalize zeros ++ Nat.toDigits 10 amount = padded at length digits value ⊢
  have split := take_append_drop (padded.length - decimalPoint) padded
  have fractionLength : (padded.drop (padded.length - decimalPoint)).length =
      decimalPoint := by
    rw [length_drop]
    omega
  have wholeLength : (padded.take (padded.length - decimalPoint)).length =
      padded.length - decimalPoint := by
    rw [length_take]
    omega
  generalize padded.take (padded.length - decimalPoint) = whole at split wholeLength
  generalize padded.drop (padded.length - decimalPoint) = fraction at split fractionLength
  rw [← split, all_append, Bool.and_eq_true] at digits
  refine ⟨whole, fraction, ⟨digits.1, digits.2, ?_, .inl ?_⟩, fractionLength, ?_⟩
  · rw [split]
    exact length_pos_iff.mp (by omega)
  · rw [← wholeLength, ← split, insertIdx_length_append]
  · have scaled := @ofDigitChars_padded whole fraction _ fractionLength.le
    rw [fractionLength, Nat.sub_self, replicate_zero, append_nil, split, value] at scaled
    exact scaled.symm

theorem parseAmount_printMoney (pos : 0 < decimalPoint) (word : amount < 2 ^ 64) :
    parseAmount decimalPoint (printMoney decimalPoint amount) = some amount := by
  obtain ⟨whole, fraction, spells, length, value⟩ := spells_printMoney pos amount
  rw [parseAmount_eq_some_iff pos]
  refine ⟨whole, fraction, by rwa [spells.trim_eq], ?_, value.symm, ?_⟩
  · exact (List.rdropWhile_prefix _ fraction).length_le.trans length.le
  · rw [value]
    exact_mod_cast word

/-- With eight decimal places `parse_amount` succeeds exactly for decimal numbers of at most eight
places, end zeros apart, whose amount fits in 64 bits; it reads back what `print_money` writes. -/
theorem parseAmount_display_spec : (∀ (str : List Char) (amount : Nat),
      parseAmount cryptonoteDisplayDecimalPoint str = some amount ↔
        ∃ whole fraction, Spells (trim str) whole fraction ∧ (withoutZeros fraction).length ≤ 8 ∧
          (amount : ℚ) = decimalValue whole fraction * 10 ^ 8 ∧
          decimalValue whole fraction * 10 ^ 8 < 2 ^ 64) ∧
    ∀ amount < 2 ^ 64, parseAmount cryptonoteDisplayDecimalPoint
      (printMoney cryptonoteDisplayDecimalPoint amount) = some amount := by
  have positive : 0 < cryptonoteDisplayDecimalPoint := by decide
  exact ⟨parseAmount_eq_some_iff positive, fun amount word => parseAmount_printMoney positive word⟩

example : parseAmount 8 " 1.50 ".toList = some 150000000 := by decide +kernel

end LodeChain

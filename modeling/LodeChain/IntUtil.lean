import LodeChain.WrappedArithmetic

/-!
# Products and quotients of 64-bit words

`int-util.h` and the portable `mul` of `difficulty.cpp` multiply words by their halves.
-/

namespace LodeChain

open WrappedArithmetic Nat

def hiDword (val : Nat) : Nat :=
  val >>> 32

def loDword (val : Nat) : Nat :=
  val &&& 0xFFFFFFFF

structure WideWord where
  low : Nat
  high : Nat
  deriving DecidableEq, Repr

variable {number divisor : Nat}

namespace WideWord

def value (wide : WideWord) : Nat :=
  wide.high * 2 ^ 64 + wide.low

def ofNat (number : Nat) : WideWord :=
  ⟨number % 2 ^ 64, number / 2 ^ 64⟩

theorem value_ofNat (number : Nat) : (ofNat number).value = number := by
  rw [value, mul_comm]
  exact div_add_mod number _

theorem low_ofNat_lt (number : Nat) : (ofNat number).low < 2 ^ 64 :=
  mod_lt _ (by decide)

theorem ofNat_of_lt (word : number < 2 ^ 64) : ofNat number = ⟨number, 0⟩ := by
  rw [ofNat, mod_eq_of_lt word, div_eq_of_lt word]

theorem eq_ofNat {wide : WideWord} (lowBound : wide.low < 2 ^ 64)
    (eq : wide.value = number) : wide = ofNat number := by
  simp [value] at eq lowBound
  rw [ofNat, mk.injEq]
  omega

end WideWord

def mul128 (multiplier multiplicand : Nat) : WideWord :=
  let a := hiDword multiplier
  let b := loDword multiplier
  let c := hiDword multiplicand
  let d := loDword multiplicand
  let ac := mulMod 64 a c
  let ad := mulMod 64 a d
  let bc := mulMod 64 b c
  let bd := mulMod 64 b d
  let adbc := addMod 64 ad bc
  let adbcCarry := if adbc < ad then 1 else 0
  let productLo := addMod 64 bd (mulMod 64 adbc (2 ^ 32))
  let productLoCarry := if productLo < bd then 1 else 0
  let productHi := addMod 64 (addMod 64 (addMod 64 ac (adbc >>> 32))
    (mulMod 64 adbcCarry (2 ^ 32))) productLoCarry
  ⟨productLo, productHi⟩

def portableMul (a b : Nat) : WideWord :=
  let aLow := loDword a
  let aHigh := hiDword a
  let bLow := loDword b
  let bHigh := hiDword b
  let res := mulMod 64 aLow bLow
  let lowRes1 := loDword res
  let carry := hiDword res
  let res := addMod 64 (mulMod 64 aHigh bLow) carry
  let highResHigh1 := hiDword res
  let highResLow1 := loDword res
  let res := mulMod 64 aLow bHigh
  let lowRes2 := loDword res
  let carry := hiDword res
  let res := addMod 64 (mulMod 64 aHigh bHigh) carry
  let highResHigh2 := hiDword res
  let highResLow2 := loDword res
  let r := addMod 64 highResLow1 lowRes2
  let carry := hiDword r
  let low := mulMod 64 r (2 ^ 32) ||| lowRes1
  let r := addMod 64 (addMod 64 highResHigh1 highResLow2) carry
  let d3 := loDword r
  let carry := hiDword r
  let r := addMod 64 highResHigh2 carry
  ⟨low, d3 ||| mulMod 64 r (2 ^ 32)⟩

/-- The remainder is read and carried on. -/
def divWithReminder (dividend divisor remainder : Nat) : Nat × Nat :=
  let dividend := remainder <<< 32 ||| dividend
  (dividend / divisor, dividend % divisor)

/-- The quotient and the remainder, in digits of 32 bits. -/
def div128By32 (dividend : WideWord) (divisor : Nat) : WideWord × Nat :=
  let (digit3, remainder) := divWithReminder (hiDword dividend.high) divisor 0
  let (digit2, remainder) := divWithReminder (loDword dividend.high) divisor remainder
  let (digit1, remainder) := divWithReminder (hiDword dividend.low) divisor remainder
  let (digit0, remainder) := divWithReminder (loDword dividend.low) divisor remainder
  (⟨mulMod 64 digit1 (2 ^ 32) ||| digit0, mulMod 64 digit3 (2 ^ 32) ||| digit2⟩, remainder)

def div128By64 (dividend : WideWord) (divisor : Nat) : WideWord :=
  let whole := (dividend.high <<< 64) ||| dividend.low
  let q := whole / divisor
  ⟨q &&& 0xffffffffffffffff, (q >>> 64) &&& 0xffffffffffffffff⟩

theorem hiDword_eq (val : Nat) : hiDword val = val / 2 ^ 32 :=
  shiftRight_eq_div_pow val 32

theorem loDword_eq (val : Nat) : loDword val = val % 2 ^ 32 :=
  and_two_pow_sub_one_eq_mod val 32

theorem dwords (val : Nat) : hiDword val * 2 ^ 32 + loDword val = val := by
  rw [hiDword_eq, loDword_eq]
  omega

theorem loDword_lt (val : Nat) : loDword val < 2 ^ 32 := by
  rw [loDword_eq]
  exact mod_lt _ (by decide)

theorem hiDword_lt {val : Nat} (word : val < 2 ^ 64) : hiDword val < 2 ^ 32 := by
  rw [hiDword_eq]
  omega

theorem mul_dwords_le {left right : Nat} (leftBound : left < 2 ^ 32) (rightBound : right < 2 ^ 32) :
    left * right ≤ (2 ^ 32 - 1) * (2 ^ 32 - 1) :=
  Nat.mul_le_mul (by omega) (by omega)

theorem mulMod_dwords {left right : Nat} (leftBound : left < 2 ^ 32) (rightBound : right < 2 ^ 32) :
    mulMod 64 left right = left * right := by
  have bounded := mul_dwords_le leftBound rightBound
  exact mulMod_of_lt (by omega)

theorem mul_eq_of_dwords (left right : Nat) : left * right = hiDword left * hiDword right * 2 ^ 64 +
        (hiDword left * loDword right + loDword left * hiDword right) * 2 ^ 32 +
        loDword left * loDword right := by
  conv_lhs => rw [← dwords left, ← dwords right]
  ring

section Exact

variable {left right : Nat}

private theorem wide_value_of_carries {ac ad bc bd adbc adbcCarry productLo
    productLoCarry : Nat} (cross : adbc + adbcCarry * 2 ^ 64 = ad + bc)
    (lower : productLo + productLoCarry * 2 ^ 64 = bd + mulMod 64 adbc (2 ^ 32))
    (bounded : ac * 2 ^ 64 + (ad + bc) * 2 ^ 32 + bd < 2 ^ 128) :
    addMod 64 (addMod 64 (addMod 64 ac (adbc >>> 32))
        (mulMod 64 adbcCarry (2 ^ 32))) productLoCarry * 2 ^ 64 + productLo =
      ac * 2 ^ 64 + (ad + bc) * 2 ^ 32 + bd := by
  simp only [addMod, mulMod] at lower ⊢
  omega

theorem mul128_eq (leftBound : left < 2 ^ 64) (rightBound : right < 2 ^ 64) :
    mul128 left right = .ofNat (left * right) := by
  have leftHigh := hiDword_lt leftBound
  have rightHigh := hiDword_lt rightBound
  have leftLow := loDword_lt left
  have rightLow := loDword_lt right
  have highBound := mul_dwords_le leftHigh rightHigh
  have crossBound := mul_dwords_le leftHigh rightLow
  have otherBound := mul_dwords_le leftLow rightHigh
  have lowBound := mul_dwords_le leftLow rightLow
  apply WideWord.eq_ofNat
  · exact addMod_lt _ _
  · rw [mul_eq_of_dwords left right]
    simp [mul128, WideWord.value, mulMod_dwords leftHigh rightHigh,
      mulMod_dwords leftHigh rightLow, mulMod_dwords leftLow rightHigh,
      mulMod_dwords leftLow rightLow]
    apply wide_value_of_carries
    · exact addMod_add_carry (by omega) (by omega)
    · exact addMod_add_carry (by omega) (mod_lt _ (by decide))
    · omega

theorem mulMod_or_dword {high low : Nat} (lowBound : low < 2 ^ 32) :
    mulMod 64 high (2 ^ 32) ||| low = high % 2 ^ 32 * 2 ^ 32 + low := by
  have shifted : mulMod 64 high (2 ^ 32) = (high % 2 ^ 32) <<< 32 := by
    rw [mulMod]
    omega
  rw [shifted, ← shiftLeft_add_eq_or_of_lt lowBound, shiftLeft_eq]

theorem portableMul_eq (leftBound : left < 2 ^ 64) (rightBound : right < 2 ^ 64) :
    portableMul left right = .ofNat (left * right) := by
  have leftHigh := hiDword_lt leftBound
  have rightHigh := hiDword_lt rightBound
  have leftLow := loDword_lt left
  have rightLow := loDword_lt right
  have highBound := mul_dwords_le leftHigh rightHigh
  have crossBound := mul_dwords_le leftHigh rightLow
  have otherBound := mul_dwords_le leftLow rightHigh
  have lowBound := mul_dwords_le leftLow rightLow
  rw [mul_eq_of_dwords left right]
  simp only [portableMul, mulMod_dwords leftHigh rightHigh,
    mulMod_dwords leftHigh rightLow, mulMod_dwords leftLow rightHigh,
    mulMod_dwords leftLow rightLow, Nat.or_comm (loDword _),
    mulMod_or_dword (loDword_lt _)]
  generalize hiDword left * hiDword right = high at highBound ⊢
  generalize hiDword left * loDword right = cross at crossBound ⊢
  generalize loDword left * hiDword right = other at otherBound ⊢
  generalize loDword left * loDword right = low at lowBound ⊢
  simp [hiDword_eq, loDword_eq, addMod]
  apply WideWord.eq_ofNat
  · dsimp only
    omega
  · dsimp only [WideWord.value]
    omega

end Exact

theorem div128By64_eq {dividend : WideWord} (lowBound : dividend.low < 2 ^ 64)
    (bounded : dividend.value / divisor < 2 ^ 128) :
    div128By64 dividend divisor = .ofNat (dividend.value / divisor) := by
  have whole : (dividend.high <<< 64) ||| dividend.low = dividend.value := by
    rw [← shiftLeft_add_eq_or_of_lt lowBound, shiftLeft_eq]
    rfl
  have mask : (0xffffffffffffffff : Nat) = 2 ^ 64 - 1 := by decide
  rw [div128By64, whole, mask, and_two_pow_sub_one_eq_mod,
    and_two_pow_sub_one_eq_mod, WideWord.ofNat,
    WideWord.mk.injEq]
  generalize dividend.value / divisor = quotient at bounded ⊢
  omega

theorem div128By64_ofNat (bounded : number < 2 ^ 128) :
    div128By64 (.ofNat number) divisor = .ofNat (number / divisor) := by
  have quotient : number / divisor < 2 ^ 128 := lt_of_le_of_lt (div_le_self _ _) bounded
  rw [div128By64_eq (WideWord.low_ofNat_lt number), WideWord.value_ofNat]
  rwa [WideWord.value_ofNat]

section LongDivision

variable (front : Nat) {digit : Nat}

theorem divWithReminder_mod (small : digit < 2 ^ 32) :
    divWithReminder digit divisor (front % divisor) =
      ((front % divisor * 2 ^ 32 + digit) / divisor, (front * 2 ^ 32 + digit) % divisor) := by
  rw [divWithReminder, ← shiftLeft_add_eq_or_of_lt small, shiftLeft_eq, add_mod,
    mul_mod, mod_mod, ← mul_mod, ← add_mod]

theorem longDivision_digit (digit : Nat) (pos : 0 < divisor) : (front * 2 ^ 32 + digit) / divisor =
      front / divisor * 2 ^ 32 + (front % divisor * 2 ^ 32 + digit) / divisor := by
  have split : front * 2 ^ 32 + digit =
      front % divisor * 2 ^ 32 + digit + divisor * (front / divisor * 2 ^ 32) := by
    conv_lhs => rw [← div_add_mod front divisor]
    ring
  rw [split, add_mul_div_left _ _ pos, add_comm]

theorem longDivision_digit_lt (pos : 0 < divisor) (small : digit < 2 ^ 32) :
    (front % divisor * 2 ^ 32 + digit) / divisor < 2 ^ 32 := by
  rw [div_lt_iff_lt_mul pos]
  have next : (front % divisor + 1) * 2 ^ 32 ≤ divisor * 2 ^ 32 :=
    mul_le_mul_right _ (mod_lt front pos)
  omega

end LongDivision

theorem div128By32_eq {dividend : WideWord} {divisor : Nat} (lowBound : dividend.low < 2 ^ 64)
    (highBound : dividend.high < 2 ^ 64) (pos : 0 < divisor) :
    div128By32 dividend divisor =
      (.ofNat (dividend.value / divisor), dividend.value % divisor) := by
  have small2 := loDword_lt dividend.high
  have small1 := hiDword_lt lowBound
  have small0 := loDword_lt dividend.low
  have value : dividend.value =
      (dividend.high * 2 ^ 32 + hiDword dividend.low) * 2 ^ 32 + loDword dividend.low := by
    rw [WideWord.value]
    nth_rewrite 1 [← dwords dividend.low]
    ring
  have first : divWithReminder (hiDword dividend.high) divisor 0 =
      (hiDword dividend.high / divisor, hiDword dividend.high % divisor) := by
    simp [divWithReminder]
  have digit3 := (div_le_self (hiDword dividend.high) divisor).trans_lt (hiDword_lt highBound)
  have digit2 := longDivision_digit_lt (hiDword dividend.high) pos small2
  have digit1 := longDivision_digit_lt dividend.high pos small1
  have digit0 := longDivision_digit_lt (dividend.high * 2 ^ 32 + hiDword dividend.low) pos small0
  have high := longDivision_digit (hiDword dividend.high) (loDword dividend.high) pos
  rw [dwords] at high
  simp only [div128By32, first, divWithReminder_mod _ small2, divWithReminder_mod _ small1,
    divWithReminder_mod _ small0, dwords, ← value, Prod.mk.injEq, and_true]
  rw [mulMod_or_dword digit0, mulMod_or_dword digit2, mod_eq_of_lt digit1,
    mod_eq_of_lt digit3]
  apply WideWord.eq_ofNat
  · dsimp only
    omega
  · rw [value, longDivision_digit (dividend.high * 2 ^ 32 + hiDword dividend.low) _ pos,
      longDivision_digit dividend.high _ pos, high, WideWord.value]
    ring

/-- Products and quotients of words are exact. -/
theorem words_exact : (∀ a b : UInt64, mul128 a.toNat b.toNat = .ofNat (a.toNat * b.toNat) ∧
      portableMul a.toNat b.toNat = .ofNat (a.toNat * b.toNat)) ∧
    ∀ (high low : UInt64) (divisor : UInt32), divisor ≠ 0 →
      div128By32 ⟨low.toNat, high.toNat⟩ divisor.toNat =
        (.ofNat ((high.toNat * 2 ^ 64 + low.toNat) / divisor.toNat),
          (high.toNat * 2 ^ 64 + low.toNat) % divisor.toNat) := by
  refine ⟨fun a b => ⟨mul128_eq a.toNat_lt b.toNat_lt, portableMul_eq a.toNat_lt b.toNat_lt⟩, ?_⟩
  intro high low divisor ne
  have pos : 0 < divisor.toNat := by
    rw [pos_iff_ne_zero]
    exact fun zero => ne (UInt32.toNat_inj.mp zero)
  exact div128By32_eq low.toNat_lt high.toNat_lt pos

theorem words_exact_thousand : div128By32 ⟨5, 3⟩ 1000 = (⟨55340232221128654, 0⟩, 853) := by
  have exact_ := words_exact.2 3 5 1000 (by decide)
  exact exact_.trans (by decide)

end LodeChain

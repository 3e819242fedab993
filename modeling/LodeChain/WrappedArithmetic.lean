import Mathlib.Algebra.BigOperators.Group.List.Basic
import Mathlib.Data.List.Nodup
import Mathlib.Data.Nat.ModEq
import Mathlib.Tactic.Ring

/-!
# Unsigned arithmetic of a fixed width

Operations on natural numbers that return the residue modulo `2 ^ width`.
-/

namespace WrappedArithmetic

open Nat

variable {width : Nat}

def addMod (width left right : Nat) : Nat :=
  (left + right) % 2 ^ width

def subMod (width left right : Nat) : Nat :=
  (left + (2 ^ width - right % 2 ^ width)) % 2 ^ width

def mulMod (width left right : Nat) : Nat :=
  (left * right) % 2 ^ width

def sumMod (width : Nat) (values : List Nat) : Nat :=
  values.foldl (addMod width) 0

theorem addMod_lt (left right : Nat) : addMod width left right < 2 ^ width :=
  Nat.mod_lt _ (Nat.two_pow_pos width)

variable {left right : Nat}

theorem addMod_of_lt (fits : left + right < 2 ^ width) : addMod width left right = left + right :=
  mod_eq_of_lt fits

theorem mulMod_of_lt (fits : left * right < 2 ^ width) : mulMod width left right = left * right :=
  mod_eq_of_lt fits

theorem subMod_of_le (bounded : left < 2 ^ width) (ordered : right ≤ left) :
    subMod width left right = left - right := by
  have rightBound : right < 2 ^ width := lt_of_le_of_lt ordered bounded
  have exact : left + (2 ^ width - right) = (left - right) + 2 ^ width := by omega
  unfold subMod
  rw [mod_eq_of_lt rightBound, exact, add_mod_right, mod_eq_of_lt (by omega)]

theorem subMod_of_lt (bounded : right < 2 ^ width) (ordered : left < right) :
    subMod width left right = left + (2 ^ width - right) := by
  unfold subMod
  rw [mod_eq_of_lt bounded, mod_eq_of_lt (by omega)]

section

variable (leftBound : left < 2 ^ width)

include leftBound

section

variable (rightBound : right < 2 ^ width)

include rightBound

theorem addMod_of_le (wraps : 2 ^ width ≤ left + right) :
    addMod width left right = left + right - 2 ^ width := by
  have residue : left + right = (left + right - 2 ^ width) + 2 ^ width := by omega
  unfold addMod
  rw [residue, Nat.add_mod_right, Nat.mod_eq_of_lt (by omega), Nat.add_sub_cancel]

theorem subMod_eq_self_iff : subMod width left right = left ↔ right = 0 := by
  rcases lt_or_ge left right with smaller | larger
  · rw [subMod_of_lt rightBound smaller]
    omega
  · rw [subMod_of_le leftBound larger]
    omega

theorem subMod_addMod : subMod width (addMod width left right) right = left := by
  rcases lt_or_ge (left + right) (2 ^ width) with fits | wraps
  · rw [addMod_of_lt fits, subMod_of_le fits (Nat.le_add_left _ _), Nat.add_sub_cancel]
  · rw [addMod_of_le leftBound rightBound wraps, subMod_of_lt rightBound (by omega)]
    omega

theorem le_addMod_iff : left ≤ addMod width right left ↔ right + left < 2 ^ width := by
  constructor
  · intro ordered
    by_contra wraps
    rw [addMod_of_le rightBound leftBound (by omega)] at ordered
    omega
  · intro fits
    rw [addMod_of_lt fits]
    omega

theorem addMod_add_carry :
    addMod width left right + (if addMod width left right < left then 1 else 0) * 2 ^ width =
      left + right := by
  rcases lt_or_ge (left + right) (2 ^ width) with fits | wraps
  · rw [addMod_of_lt fits, if_neg (by omega)]
    omega
  · rw [addMod_of_le leftBound rightBound wraps, if_pos (by omega)]
    omega

end

end

private theorem foldl_addMod (values : List Nat) (start : Nat) :
    values.foldl (addMod width) (start % 2 ^ width) = (start + values.sum) % 2 ^ width := by
  induction values generalizing start with
  | nil => simp
  | cons value rest ih =>
    have step : addMod width (start % 2 ^ width) value = (start + value) % 2 ^ width := by
      simp [addMod]
    rw [List.foldl_cons, step, ih, List.sum_cons, add_assoc]

theorem sumMod_eq (values : List Nat) : sumMod width values = values.sum % 2 ^ width := by
  have start := @foldl_addMod width values 0
  rwa [zero_add] at start

theorem sumMod_lt (values : List Nat) : sumMod width values < 2 ^ width := by
  rw [sumMod_eq]
  exact Nat.mod_lt _ (Nat.two_pow_pos width)

theorem sumMod_of_lt {values : List Nat} (fits : values.sum < 2 ^ width) :
    sumMod width values = values.sum := by
  rw [sumMod_eq, mod_eq_of_lt fits]

theorem sumMod_append_singleton (values : List Nat) (value : Nat) :
    sumMod width (values ++ [value]) = addMod width (sumMod width values) value := by
  simp [sumMod]

/-! ## Running sums of machine words -/

open List

def runningSums (w total : Nat) : List Nat → List Nat
  | [] => []
  | difference :: rest =>
    addMod w difference total :: runningSums w (addMod w difference total) rest

@[simp]
theorem length_runningSums (w total : Nat) (differences : List Nat) :
    (runningSums w total differences).length = differences.length := by
  induction differences generalizing total with
  | nil => rfl
  | cons difference rest ih => simp [runningSums, ih]

theorem getElem?_runningSums (w total : Nat) (differences : List Nat)
    {index : Nat} (lt : index < differences.length) :
    (runningSums w total differences)[index]? =
      some ((total + (differences.take (index + 1)).sum) % 2 ^ w) := by
  induction differences generalizing total index with
  | nil => simp at lt
  | cons difference rest ih =>
    cases index with
    | zero => simp [runningSums, addMod, add_comm]
    | succ index =>
      rw [length_cons] at lt
      rw [runningSums, List.getElem?_cons_succ, ih _ (by omega),
        take_succ_cons, sum_cons, addMod, mod_add_mod,
        ← add_assoc, add_comm difference]

variable {w total : Nat}

theorem getElem?_cons_runningSums (word : total < 2 ^ w) (differences : List Nat) {index : Nat}
    (lt : index ≤ differences.length) : (total :: runningSums w total differences)[index]? =
      some ((total + (differences.take index).sum) % 2 ^ w) := by
  cases index with
  | zero => simp [mod_eq_of_lt word]
  | succ index => exact getElem?_runningSums w total differences lt

theorem add_mod_eq_iff_dvd (w total first later : Nat) :
    (total + first) % 2 ^ w = (total + (first + later)) % 2 ^ w ↔ 2 ^ w ∣ later := by
  constructor
  · intro same
    have congruent := (modEq_iff_dvd' (by omega)).mp same
    rwa [show total + (first + later) - (total + first) = later by omega] at congruent
  · intro divides
    apply (modEq_iff_dvd' (by omega)).mpr
    rwa [show total + (first + later) - (total + first) = later by omega]

theorem sum_take_add (differences : List Nat) (start count : Nat) :
    (differences.take (start + count)).sum = (differences.take start).sum +
        ((differences.drop start).take count).sum := by
  rw [take_add, List.sum_append]

theorem nodup_runningSums_iff (word : total < 2 ^ w) (differences : List Nat) :
    (total :: runningSums w total differences).Nodup ↔
      ∀ start count, 0 < count → start + count ≤ differences.length →
        ¬2 ^ w ∣ ((differences.drop start).take count).sum := by
  rw [nodup_iff_getElem?_ne_getElem?]
  constructor
  · intro distinct start count pos lt divides
    apply distinct start (start + count) (by omega)
    · simp
      omega
    · rw [getElem?_cons_runningSums word _ (by omega),
        getElem?_cons_runningSums word _ lt, sum_take_add,
        (add_mod_eq_iff_dvd _ _ _ _).mpr divides]
  · intro apart first second ordered lt same
    simp at lt
    rw [getElem?_cons_runningSums word _ (by omega),
      getElem?_cons_runningSums word _ (by omega), Option.some.injEq,
      show second = first + (second - first) by omega, sum_take_add,
      add_mod_eq_iff_dvd] at same
    exact apart first _ (by omega) (by omega) same

theorem sum_take_le (differences : List Nat) (count : Nat) :
    (differences.take count).sum ≤ differences.sum := by
  rw [← sum_take_add_sum_drop differences]
  exact le_add_right _ _

theorem le_getLast_runningSums {differences : List Nat} (fits : total + differences.sum < 2 ^ w)
    {last value : Nat} (isLast : (total :: runningSums w total differences).getLast? = some last)
    (mem : value ∈ total :: runningSums w total differences) : value ≤ last := by
  have word : total < 2 ^ w := by omega
  rw [List.getLast?_eq_getElem?, length_cons, length_runningSums,
    Nat.add_sub_cancel, getElem?_cons_runningSums word _ le_rfl,
    take_length, mod_eq_of_lt fits, Option.some.injEq] at isLast
  obtain ⟨index, found⟩ := mem_iff_getElem?.mp mem
  have lt := (List.getElem?_eq_some_iff.mp found).choose
  simp at lt
  rw [getElem?_cons_runningSums word _ (by omega), Option.some.injEq] at found
  calc value = (total + (differences.take index).sum) % 2 ^ w := found.symm
    _ ≤ total + (differences.take index).sum := mod_le _ _
    _ ≤ total + differences.sum := Nat.add_le_add_left (sum_take_le differences index) total
    _ = last := isLast

end WrappedArithmetic

/-! ## Numbers as bytes, the lowest byte first -/

namespace LodeChain

def toLittleEndian : Nat → Nat → List UInt8
  | 0, _ => []
  | width + 1, value => (value % 256).toUInt8 :: toLittleEndian width (value / 256)

def ofLittleEndian : List UInt8 → Nat
  | [] => 0
  | byte :: bytes => byte.toNat + 256 * ofLittleEndian bytes

@[simp]
theorem length_toLittleEndian (width value : Nat) :
    (toLittleEndian width value).length = width := by
  induction width generalizing value with
  | zero => rfl
  | succ width ih => rw [toLittleEndian, List.length_cons, ih]

theorem ofLittleEndian_toLittleEndian (width value : Nat) :
    ofLittleEndian (toLittleEndian width value) = value % 256 ^ width := by
  induction width generalizing value with
  | zero => simp [toLittleEndian, ofLittleEndian, Nat.mod_one]
  | succ width ih =>
    have byte : (value % 256).toUInt8.toNat = value % 256 := by simp
    rw [toLittleEndian, ofLittleEndian, byte, ih, pow_succ', Nat.mod_mul]

theorem ofLittleEndian_toLittleEndian_of_lt {width value : Nat} (small : value < 256 ^ width) :
    ofLittleEndian (toLittleEndian width value) = value := by
  rw [ofLittleEndian_toLittleEndian, Nat.mod_eq_of_lt small]

theorem toLittleEndian_ofLittleEndian (bytes : List UInt8) :
    toLittleEndian bytes.length (ofLittleEndian bytes) = bytes := by
  induction bytes with
  | nil => rfl
  | cons byte bytes ih =>
    have small := byte.toNat_lt
    rw [List.length_cons, toLittleEndian, ofLittleEndian,
      show (byte.toNat + 256 * ofLittleEndian bytes) / 256 = ofLittleEndian bytes by omega, ih]
    simp

theorem ofLittleEndian_lt (bytes : List UInt8) : ofLittleEndian bytes < 256 ^ bytes.length := by
  induction bytes with
  | nil => exact Nat.one_pos
  | cons byte bytes ih =>
    have small := byte.toNat_lt
    rw [List.length_cons, ofLittleEndian]
    omega

end LodeChain

import LodeChain.Transaction
import Mathlib.Algebra.Order.Floor.Div
import Mathlib.Data.List.GetD

/-!
# Difficulty

`difficulty.cpp`: the retargeting rule, and the test of a hash against a difficulty.
-/

namespace LodeChain

open List

def getMid (left right : Nat) : Nat :=
  left / 2 + right / 2 + ((left - 2 * (left / 2)) + (right - 2 * (right / 2))) / 2

def sortAscending (values : List Nat) : List Nat :=
  values.insertionSort (· ≤ ·)

def median (values : List Nat) : Nat :=
  if values.length = 0 then 0
  else if values.length = 1 then values.getD 0 0
  else
    let half := values.length / 2
    let sorted := sortAscending values
    if values.length % 2 = 1 then sorted.getD half 0
    else getMid (sorted.getD (half - 1) 0) (sorted.getD half 0)

theorem getMid_eq (left right : Nat) : getMid left right = (left + right) / 2 := by
  unfold getMid
  omega

variable {values left right : List Nat}

theorem sortAscending_of_pairwise (ordered : values.Pairwise (· ≤ ·)) :
    sortAscending values = values :=
  ordered.insertionSort_eq

theorem sortAscending_of_perm (permuted : left.Perm right) :
    sortAscending left = sortAscending right := by
  have sorted : (sortAscending left).Perm (sortAscending right) :=
    (perm_insertionSort _ left).trans (permuted.trans (perm_insertionSort _ right).symm)
  exact sorted.eq_of_pairwise' (pairwise_insertionSort _ _) (pairwise_insertionSort _ _)

theorem sortAscending_append_cons {lows highs : List Nat} {pivot : Nat}
    (below : ∀ low ∈ lows, low ≤ pivot) (above : ∀ high ∈ highs, pivot ≤ high) :
    sortAscending (lows ++ pivot :: highs) =
      sortAscending lows ++ pivot :: sortAscending highs := by
  have lowsPerm : (sortAscending lows).Perm lows := perm_insertionSort _ _
  have highsPerm : (sortAscending highs).Perm highs := perm_insertionSort _ _
  have sorted : (sortAscending lows ++ pivot :: sortAscending highs).Pairwise (· ≤ ·) := by
    refine pairwise_append.mpr ⟨pairwise_insertionSort _ _,
      pairwise_cons.mpr ⟨?_, pairwise_insertionSort _ _⟩, ?_⟩
    · intro high mem
      exact above high (highsPerm.mem_iff.mp mem)
    · intro low lowMember other otherMember
      have lowBelow := below low (lowsPerm.mem_iff.mp lowMember)
      obtain rfl | highMember := mem_cons.mp otherMember
      · exact lowBelow
      · exact lowBelow.trans (above other (highsPerm.mem_iff.mp highMember))
  rw [← sortAscending_of_pairwise sorted]
  exact sortAscending_of_perm (lowsPerm.append (highsPerm.cons pivot)).symm

theorem median_eq_sorted (values : List Nat) :
    median values = if values.length % 2 = 1 then (sortAscending values).getD (values.length / 2) 0
      else
        ((sortAscending values).getD (values.length / 2 - 1) 0 +
          (sortAscending values).getD (values.length / 2) 0) / 2 := by
  match values with
  | [] => rfl
  | [value] => simp [median, sortAscending]
  | first :: second :: rest =>
    have long : (first :: second :: rest).length ≠ 0 ∧
        (first :: second :: rest).length ≠ 1 := by simp
    simp [median, getMid_eq]

theorem median_of_perm (permuted : left.Perm right) : median left = median right := by
  rw [median_eq_sorted, median_eq_sorted, sortAscending_of_perm permuted, permuted.length_eq]

private theorem getD_replicate_append (lows highs low high index : Nat)
    (lt : index < lows + highs) :
    (List.replicate lows low ++ List.replicate highs high).getD index 0 =
      if index < lows then low else high := by
  rw [getD_eq_getElem _ _ (by simpa using lt), getElem_append]
  simp only [length_replicate, getElem_replicate, dite_eq_ite]

theorem median_replicate_append {lows highs low high : Nat}
    (ordered : low ≤ high) (ne : 0 < lows + highs) :
    median (List.replicate lows low ++ List.replicate highs high) = if highs < lows then low
      else if lows < highs then high
      else (low + high) / 2 := by
  have sorted : (List.replicate lows low ++ List.replicate highs high).Pairwise (· ≤ ·) := by
    rw [pairwise_append]
    refine ⟨pairwise_replicate.mpr (.inr le_rfl), pairwise_replicate.mpr (.inr le_rfl), ?_⟩
    intro left leftMember right rightMember
    rw [eq_of_mem_replicate leftMember, eq_of_mem_replicate rightMember]
    exact ordered
  rw [median_eq_sorted, sortAscending_of_pairwise sorted, length_append,
    length_replicate, length_replicate]
  split
  · rename_i odd
    rw [getD_replicate_append _ _ _ _ _]
    split_ifs
    all_goals omega
  · rename_i even
    rw [getD_replicate_append _ _ _ _ _, getD_replicate_append _ _ _ _ _]
    split_ifs
    all_goals omega

theorem getD_lt {bound : Nat} (pos : 0 < bound) (below : ∀ value ∈ values, value < bound)
    (index : Nat) : values.getD index 0 < bound := by
  rw [getD_eq_getElem?_getD]
  cases found : values[index]? with
  | none => exact pos
  | some value => exact below value (mem_of_getElem? found)

theorem mem_sortAscending {value : Nat} : value ∈ sortAscending values ↔ value ∈ values :=
  (perm_insertionSort _ values).mem_iff

theorem median_lt {bound : Nat} (pos : 0 < bound)
    (below : ∀ value ∈ values, value < bound) : median values < bound := by
  have entryBelow := getD_lt pos fun value mem => below value (mem_sortAscending.mp mem)
  have midBelow := fun left right => getMid_eq
    ((sortAscending values).getD left 0) ((sortAscending values).getD right 0)
  unfold median
  split_ifs with empty single odd
  · exact pos
  · obtain ⟨value, rfl⟩ := length_eq_one_iff.mp single
    exact below value mem_cons_self
  · exact entryBelow _
  · have low := entryBelow (values.length / 2 - 1)
    have high := entryBelow (values.length / 2)
    rw [midBelow]
    omega

/-! ## The rule and the test -/

open WrappedArithmetic

def difficultyCutRange (length : Nat) : Nat × Nat :=
  if length ≤ difficultyWindow - 2 * difficultyCut then (0, length)
  else
    let cutBegin := (length - (difficultyWindow - 2 * difficultyCut) + 1) / 2
    (cutBegin, cutBegin + (difficultyWindow - 2 * difficultyCut))

def nextDifficulty (timestamps cumulativeDifficulties : List Nat) (targetSeconds : Nat) : Nat :=
  let timestamps := timestamps.take difficultyWindow
  let cumulativeDifficulties := cumulativeDifficulties.take difficultyWindow
  let length := timestamps.length
  if length ≤ 1 then 1
  else
    let sorted := sortAscending timestamps
    let cut := difficultyCutRange length
    let timeSpan := max 1 (sorted.getD (cut.2 - 1) 0 - sorted.getD cut.1 0)
    let totalWork := subMod 128 (cumulativeDifficulties.getD (cut.2 - 1) 0)
      (cumulativeDifficulties.getD cut.1 0)
    let result := (totalWork * targetSeconds + timeSpan - 1) / timeSpan
    if 2 ^ 128 - 1 < result then 0
    else result

def hashWord (hash index : Nat) : Nat :=
  hash / 2 ^ (64 * index) % 2 ^ 64

def cadd (left right : Nat) : Bool :=
  addMod 64 left right < left

def cadc (left right : Nat) (carry : Bool) : Bool :=
  addMod 64 left right < left || (carry && addMod 64 left right == 2 ^ 64 - 1)

theorem nextDifficulty_lt (times works : List Nat) (target : Nat) :
    nextDifficulty times works target < 2 ^ 128 := by
  unfold nextDifficulty
  simp only
  split_ifs <;> omega

/-! ## The window of the difficulty rule -/

open Option

def resize (values : List Nat) (size : Nat) : List Nat :=
  values.take size ++ List.replicate (size - values.length) 0

/-- The rules behind their early return, on a sorted window. -/
def scaledWork (assertions : Bool) (width : Nat) (divide : Nat → Nat → Nat)
    (sorted cumulativeDifficulties : List Nat) (cutBegin cutEnd : Nat) : Option Nat := do
  let lastTime ← sorted[cutEnd - 1]?
  let firstTime ← sorted[cutBegin]?
  let elapsed := subMod 64 lastTime firstTime
  let timeSpan := if elapsed = 0 then 1 else elapsed
  let lastWork ← cumulativeDifficulties[cutEnd - 1]?
  let firstWork ← cumulativeDifficulties[cutBegin]?
  let totalWork := subMod width lastWork firstWork
  if assertions ∧ totalWork = 0 then none else some (divide totalWork timeSpan)

/-- `next_difficulty` and `next_difficulty_64` differ in the width of a cumulative difficulty and in
how they divide the work by the time span; `none` when an access or a compiled assertion fails. -/
def difficultyRule (assertions : Bool) (width : Nat) (divide : Nat → Nat → Nat)
    (timestamps cumulativeDifficulties : List Nat) : Option Nat :=
  let long := difficultyWindow < timestamps.length
  let timestamps := if long then resize timestamps difficultyWindow else timestamps
  let cumulativeDifficulties := if long then resize cumulativeDifficulties difficultyWindow
    else cumulativeDifficulties
  let length := timestamps.length
  if assertions ∧ length ≠ cumulativeDifficulties.length then none
  else if length ≤ 1 then some 1
  else
    let sorted := sortAscending timestamps
    let cut := difficultyCutRange length
    if assertions ∧ ¬(length ≤ difficultyWindow ∧ cut.1 + 2 ≤ cut.2 ∧ cut.2 ≤ length) then none
    else scaledWork assertions width divide sorted cumulativeDifficulties cut.1 cut.2

def nextDifficultyChecked (timestamps cumulativeDifficulties : List Nat)
    (targetSeconds : Nat) : Option Nat :=
  difficultyRule true 128 (fun totalWork timeSpan =>
    let res := (totalWork * targetSeconds + timeSpan - 1) / timeSpan
    if 2 ^ 128 - 1 < res then 0 else res) timestamps cumulativeDifficulties

theorem difficultyCutRange_spec {length : Nat} (several : 1 < length) :
    (difficultyCutRange length).1 + 2 ≤ (difficultyCutRange length).2 ∧
      (difficultyCutRange length).2 ≤ length := by
  have kept : difficultyWindow - 2 * difficultyCut = 600 := rfl
  unfold difficultyCutRange
  split_ifs with short
  · exact ⟨several, le_rfl⟩
  · dsimp only
    omega

theorem resize_of_le {size : Nat} (long : size ≤ values.length) :
    resize values size = values.take size := by
  rw [resize, Nat.sub_eq_zero_of_le long, replicate_zero, append_nil]

theorem length_sortAscending (values : List Nat) : (sortAscending values).length = values.length :=
  length_insertionSort _ values

theorem sortAscending_getD_le {first last : Nat}
    (ordered : first ≤ last) (lt : last < values.length) :
    (sortAscending values).getD first 0 ≤ (sortAscending values).getD last 0 := by
  have sortedLength := length_sortAscending values
  rw [getD_eq_getElem _ _ (by omega), getD_eq_getElem _ _ (by omega)]
  rcases eq_or_lt_of_le ordered with rfl | before
  · exact le_rfl
  · have sorted : (sortAscending values).Pairwise (· ≤ ·) := pairwise_insertionSort _ values
    exact pairwise_iff_getElem.mp sorted first last (by omega) (by omega) before

theorem window_eq_take {length : Nat} (same : values.length = length) :
    (if difficultyWindow < length then resize values difficultyWindow
      else values) = values.take difficultyWindow := by
  split_ifs with long
  · exact resize_of_le (by omega)
  · exact (take_of_length_le (by omega)).symm

def quotientUp (work targetSeconds timeSpan : Nat) : Nat :=
  if 2 ^ 128 - 1 < (work * targetSeconds) ⌈/⌉ max 1 timeSpan then 0
  else (work * targetSeconds) ⌈/⌉ max 1 timeSpan

theorem getElem?_inside {index : Nat} (lt : index < values.length) :
    values[index]? = some (values.getD index 0) ∧ values.getD index 0 ∈ values := by
  rw [getD_eq_getElem _ _ lt]
  exact ⟨getElem?_eq_getElem lt, getElem_mem lt⟩

theorem atLeastOne_eq_max (timeSpan : Nat) :
    (if timeSpan = 0 then 1 else timeSpan) = max 1 timeSpan := by
  split_ifs <;> omega

variable {assertions : Bool} {width : Nat} {divide : Nat → Nat → Nat}

theorem scaledWork_eq {sorted works : List Nat} {cutBegin cutEnd : Nat}
    (apart : cutBegin + 2 ≤ cutEnd)
    (timesInside : cutEnd ≤ sorted.length) (worksInside : cutEnd ≤ works.length)
    (times : ∀ time ∈ sorted, time < 2 ^ 64) (wide : ∀ work ∈ works, work < 2 ^ width)
    (ordered : sorted.getD cutBegin 0 ≤ sorted.getD (cutEnd - 1) 0)
    (worked : works.getD cutBegin 0 ≤ works.getD (cutEnd - 1) 0) :
    scaledWork assertions width divide sorted works cutBegin cutEnd =
      if assertions ∧ works.getD (cutEnd - 1) 0 - works.getD cutBegin 0 = 0 then none
      else some (divide (works.getD (cutEnd - 1) 0 - works.getD cutBegin 0)
        (max 1 (sorted.getD (cutEnd - 1) 0 - sorted.getD cutBegin 0))) := by
  obtain ⟨lastTime, lastTimeMem⟩ := getElem?_inside (by omega : cutEnd - 1 < sorted.length)
  obtain ⟨firstTime, -⟩ := getElem?_inside (by omega : cutBegin < sorted.length)
  obtain ⟨lastWork, lastWorkMem⟩ := getElem?_inside (by omega : cutEnd - 1 < works.length)
  obtain ⟨firstWork, -⟩ := getElem?_inside (by omega : cutBegin < works.length)
  unfold scaledWork
  rw [lastTime, firstTime, lastWork, firstWork]
  simp only [bind_eq_bind, bind_some, subMod_of_le (times _ lastTimeMem) ordered,
    subMod_of_le (wide _ lastWorkMem) worked, atLeastOne_eq_max]

theorem ceilDiv_pos_of_pos {number divisor : Nat} (pos : 0 < number) (divides : 1 ≤ divisor) :
    0 < number ⌈/⌉ divisor := by
  exact Nat.div_pos (by omega) divides

section Window

def windowTimeSpan (timestamps : List Nat) : Nat :=
  let window := timestamps.take difficultyWindow
  let cut := difficultyCutRange window.length
  (sortAscending window).getD (cut.2 - 1) 0 - (sortAscending window).getD cut.1 0

def windowWork (cumulativeDifficulties : List Nat) : Nat :=
  let window := cumulativeDifficulties.take difficultyWindow
  let cut := difficultyCutRange window.length
  window.getD (cut.2 - 1) 0 - window.getD cut.1 0

variable {timestamps cumulativeDifficulties : List Nat}
  (sameLength : timestamps.length = cumulativeDifficulties.length)
  (times : ∀ time ∈ timestamps, time < 2 ^ 64)
  (wide : ∀ work ∈ cumulativeDifficulties, work < 2 ^ 128)
  (increasing : cumulativeDifficulties.Pairwise (· < ·))

include sameLength

theorem length_take_window : (cumulativeDifficulties.take difficultyWindow).length =
      (timestamps.take difficultyWindow).length := by
  simp [sameLength]

theorem windowWork_related {related : Nat → Nat → Prop}
    (pairs : cumulativeDifficulties.Pairwise related)
    (several : 1 < (timestamps.take difficultyWindow).length) :
    let works := cumulativeDifficulties.take difficultyWindow
    let cut := difficultyCutRange (timestamps.take difficultyWindow).length
    related (works.getD cut.1 0) (works.getD (cut.2 - 1) 0) := by
  intro works cut
  have lengths : works.length = (timestamps.take difficultyWindow).length :=
    length_take_window sameLength
  obtain ⟨apart, lt⟩ : cut.1 + 2 ≤ cut.2 ∧ cut.2 ≤ _ := difficultyCutRange_spec several
  have windowPairs : works.Pairwise related := pairs.sublist (take_sublist _ _)
  rw [getD_eq_getElem _ _, getD_eq_getElem _ _]
  exact pairwise_iff_getElem.mp windowPairs _ _ (by omega) (by omega) (by omega)

theorem windowWork_pos (increasing : cumulativeDifficulties.Pairwise (· < ·))
    (several : 1 < (timestamps.take difficultyWindow).length) :
    0 < windowWork cumulativeDifficulties := by
  have grows := windowWork_related sameLength increasing several
  rw [← length_take_window sameLength] at grows
  exact Nat.sub_pos_of_lt grows

theorem nextDifficulty_of_several (target : Nat)
    (wide : ∀ work ∈ cumulativeDifficulties, work < 2 ^ 128)
    (several : 1 < (timestamps.take difficultyWindow).length)
    (ordered : let works := cumulativeDifficulties.take difficultyWindow
      let cut := difficultyCutRange (timestamps.take difficultyWindow).length
      works.getD cut.1 0 ≤ works.getD (cut.2 - 1) 0) :
    nextDifficulty timestamps cumulativeDifficulties target =
      quotientUp (windowWork cumulativeDifficulties) target (windowTimeSpan timestamps) := by
  have lengths := length_take_window sameLength
  obtain ⟨apart, lt⟩ := difficultyCutRange_spec several
  have lastBound : (cumulativeDifficulties.take difficultyWindow).getD
      ((difficultyCutRange (timestamps.take difficultyWindow).length).2 - 1) 0 < 2 ^ 128 :=
    wide _ (mem_of_mem_take (getElem?_inside (by omega)).2)
  unfold nextDifficulty
  dsimp only
  rw [if_neg (by omega), subMod_of_le lastBound ordered]
  simp only [quotientUp, Nat.ceilDiv_eq_add_pred_div, windowWork, windowTimeSpan, lengths]

theorem difficultyRule_eq : difficultyRule assertions width divide timestamps
      cumulativeDifficulties =
    if (timestamps.take difficultyWindow).length ≤ 1 then some 1
    else
      scaledWork assertions width divide (sortAscending (timestamps.take difficultyWindow))
        (cumulativeDifficulties.take difficultyWindow)
        (difficultyCutRange (timestamps.take difficultyWindow).length).1
        (difficultyCutRange (timestamps.take difficultyWindow).length).2 := by
  have lengths := length_take_window sameLength
  have bounded : (timestamps.take difficultyWindow).length ≤ difficultyWindow := by simp
  unfold difficultyRule
  dsimp only
  rw [window_eq_take rfl, window_eq_take sameLength.symm,
    if_neg (fun failed => failed.2 lengths.symm)]
  by_cases few : (timestamps.take difficultyWindow).length ≤ 1
  · rw [if_pos few, if_pos few]
  · rw [if_neg few, if_neg few, if_neg]
    exact fun failed => failed.2 ⟨bounded, difficultyCutRange_spec (by omega)⟩

theorem difficultyRule_of_several (times : ∀ time ∈ timestamps, time < 2 ^ 64)
    (wide : ∀ work ∈ cumulativeDifficulties, work < 2 ^ width)
    (several : 1 < (timestamps.take difficultyWindow).length)
    (worked : let works := cumulativeDifficulties.take difficultyWindow
      let cut := difficultyCutRange (timestamps.take difficultyWindow).length
      works.getD cut.1 0 ≤ works.getD (cut.2 - 1) 0) :
    difficultyRule assertions width divide timestamps cumulativeDifficulties =
      if assertions ∧ windowWork cumulativeDifficulties = 0 then none
      else
        some (divide (windowWork cumulativeDifficulties) (max 1 (windowTimeSpan timestamps))) := by
  have lengths := length_take_window sameLength
  obtain ⟨apart, lt⟩ := difficultyCutRange_spec several
  have sortedLength := length_sortAscending (timestamps.take difficultyWindow)
  rw [difficultyRule_eq sameLength, if_neg (by omega),
    scaledWork_eq apart (by omega) (by omega) _ _
      (sortAscending_getD_le (by omega) (by omega)) worked]
  · simp [windowWork, windowTimeSpan, lengths]
  · intro time mem
    exact times time (mem_of_mem_take (mem_sortAscending.mp mem))
  · intro work mem
    exact wide work (mem_of_mem_take mem)

theorem nextDifficultyChecked_of_perm (targetSeconds : Nat) {permuted : List Nat}
    (permutedLength : permuted.length = timestamps.length)
    (permutes : (permuted.take difficultyWindow).Perm (timestamps.take difficultyWindow)) :
    nextDifficultyChecked permuted cumulativeDifficulties targetSeconds =
      nextDifficultyChecked timestamps cumulativeDifficulties targetSeconds := by
  rw [nextDifficultyChecked, nextDifficultyChecked, difficultyRule_eq sameLength,
    difficultyRule_eq (permutedLength.trans sameLength), permutes.length_eq,
    sortAscending_of_perm permutes]

include times wide

theorem nextDifficultyChecked_of_several (target : Nat)
    (several : 1 < (timestamps.take difficultyWindow).length)
    (worked : 0 < windowWork cumulativeDifficulties) :
    nextDifficultyChecked timestamps cumulativeDifficulties target =
      some (quotientUp (windowWork cumulativeDifficulties) target (windowTimeSpan timestamps)) := by
  have ordered := worked
  simp only [windowWork, length_take_window sameLength] at ordered
  rw [nextDifficultyChecked, difficultyRule_of_several sameLength times wide several
    (Nat.lt_of_sub_pos ordered).le, if_neg fun failed => worked.ne' failed.2]
  simp only [quotientUp, Nat.ceilDiv_eq_add_pred_div]

include increasing

theorem nextDifficultyChecked_eq_nextDifficulty (target : Nat) :
    nextDifficultyChecked timestamps cumulativeDifficulties target =
      some (nextDifficulty timestamps cumulativeDifficulties target) := by
  by_cases few : (timestamps.take difficultyWindow).length ≤ 1
  · rw [nextDifficultyChecked, difficultyRule_eq sameLength, if_pos few, nextDifficulty, if_pos few]
  · have several : 1 < (timestamps.take difficultyWindow).length := by omega
    have grows := windowWork_related sameLength increasing several
    rw [nextDifficultyChecked_of_several sameLength times wide target several
      (windowWork_pos sameLength increasing several),
      nextDifficulty_of_several sameLength target wide several grows.le]

/-- On increasing cumulative difficulties no assertion or access fails, the order of timestamps does
not matter, and the result is the rounded quotient, or zero if too large. -/
theorem nextDifficultyChecked_spec (targetSeconds : Nat) (target : 1 ≤ targetSeconds) :
    (nextDifficultyChecked timestamps cumulativeDifficulties targetSeconds).isSome ∧
      (∀ permuted : List Nat, permuted.length = timestamps.length →
        (permuted.take difficultyWindow).Perm (timestamps.take difficultyWindow) →
        nextDifficultyChecked permuted cumulativeDifficulties targetSeconds =
          nextDifficultyChecked timestamps cumulativeDifficulties targetSeconds) ∧
      ((timestamps.take difficultyWindow).length ≤ 1 →
        nextDifficultyChecked timestamps cumulativeDifficulties targetSeconds = some 1) ∧
      (1 < (timestamps.take difficultyWindow).length →
        let value := (windowWork cumulativeDifficulties * targetSeconds) ⌈/⌉
          max 1 (windowTimeSpan timestamps)
        nextDifficultyChecked timestamps cumulativeDifficulties targetSeconds =
            some (if value ≤ 2 ^ 128 - 1 then value else 0) ∧
          (nextDifficultyChecked timestamps cumulativeDifficulties
            targetSeconds = some 0 ↔ 2 ^ 128 - 1 < value)) := by
  have single : (timestamps.take difficultyWindow).length ≤ 1 →
      nextDifficultyChecked timestamps cumulativeDifficulties targetSeconds = some 1 := by
    intro few
    rw [nextDifficultyChecked, difficultyRule_eq sameLength, if_pos few]
  have positiveWork := windowWork_pos sameLength increasing
  have several := nextDifficultyChecked_of_several sameLength times wide targetSeconds
  refine ⟨?_, fun permuted permutedLength permutes =>
    nextDifficultyChecked_of_perm sameLength targetSeconds permutedLength permutes,
    single, ?_⟩
  · rcases lt_or_ge 1 (timestamps.take difficultyWindow).length with more | few
    · rw [several more (positiveWork more), isSome_some]
    · rw [single few, isSome_some]
  · intro more value
    have positive : 0 < value :=
      ceilDiv_pos_of_pos (mul_pos (positiveWork more) target) (le_max_left 1 _)
    rw [several more (positiveWork more), quotientUp, Option.some.injEq, Option.some.injEq]
    change (if 2 ^ 128 - 1 < value then 0 else value) = _ ∧
      ((if 2 ^ 128 - 1 < value then 0 else value) = 0 ↔ _)
    split_ifs <;> omega

end Window

theorem twoBlocks_nextDifficulty : nextDifficultyChecked [1060, 1000] [7, 107] 120 = some 200 := by
  have doubled := ((nextDifficultyChecked_spec (by rfl) (by decide) (by decide)
    (by decide) 120 (by decide)).2.2.2 (by decide) :
      nextDifficultyChecked [1060, 1000] [7, 107] 120 = _ ∧ _).1
  decide +kernel

/-! ## The test on both platforms -/

inductive Platform
  | x8664
  | other
  deriving DecidableEq, Repr

def Platform.mul : Platform → Nat → Nat → WideWord
  | .x8664 => mul128
  | .other => portableMul

def checkHash64On (platform : Platform) (hash difficulty : Nat) : Bool :=
  let top := platform.mul (hashWord hash 3) difficulty
  if top.high ≠ 0 then false
  else
    let first := platform.mul (hashWord hash 0) difficulty
    let second := platform.mul (hashWord hash 1) difficulty
    let carry := cadd first.high second.low
    let third := platform.mul (hashWord hash 2) difficulty
    let carry := cadc second.high third.low carry
    let carry := cadc third.high top.low carry
    !carry

def hashVal (hash : Nat) : Nat :=
  (List.range 4).foldl (fun hashVal i => (hashVal <<< 64) ||| hashWord hash (3 - i)) 0

def checkHash128Words (hash difficulty : Nat) : Bool :=
  hashVal hash * difficulty ≤ 2 ^ 256 - 1

def checkHashOn (platform : Platform) (hash difficulty : Nat) : Bool :=
  if difficulty ≤ 2 ^ 64 - 1 then checkHash64On platform hash difficulty
  else checkHash128Words hash difficulty

/-- The check with the 128-bit multiplication of x86-64. -/
def checkHash (hash difficulty : Nat) : Bool :=
  checkHashOn .x8664 hash difficulty

theorem hashWord_lt (hash index : Nat) : hashWord hash index < 2 ^ 64 :=
  Nat.mod_lt _ (by decide)

theorem hash_eq_words {hash : Nat} (bounded : hash < 2 ^ 256) :
    hash = hashWord hash 3 * 2 ^ 192 + hashWord hash 2 * 2 ^ 128 +
      hashWord hash 1 * 2 ^ 64 + hashWord hash 0 := by
  simp [hashWord]
  omega

theorem hashVal_eq {hash : Nat} (bounded : hash < 2 ^ 256) : hashVal hash = hash := by
  have joined : ∀ value index, (value <<< 64) ||| hashWord hash index =
      value * 2 ^ 64 + hashWord hash index := by
    intro value index
    rw [← Nat.shiftLeft_add_eq_or_of_lt (hashWord_lt hash index), Nat.shiftLeft_eq]
  have words := hash_eq_words bounded
  simp only [hashVal, range_succ, range_zero, nil_append,
    cons_append, foldl_cons, foldl_nil, joined, zero_mul,
    zero_add, Nat.reduceSub]
  omega

theorem platform_mul_eq (platform : Platform) {left right : Nat}
    (leftBound : left < 2 ^ 64) (rightBound : right < 2 ^ 64) :
    platform.mul left right = .ofNat (left * right) := by
  cases platform with
  | x8664 => exact mul128_eq leftBound rightBound
  | other => exact portableMul_eq leftBound rightBound

section Carries

variable {left right : Nat} (leftBound : left < 2 ^ 64) (rightBound : right < 2 ^ 64)

include leftBound rightBound

theorem cadd_toNat : (cadd left right).toNat = (left + right) / 2 ^ 64 := by
  have carried := addMod_add_carry leftBound rightBound
  have sumBound := @addMod_lt 64 left right
  unfold cadd
  split_ifs at carried with wraps
  · simp [wraps]
    omega
  · simp [wraps]
    omega

theorem cadc_toNat (carry : Bool) :
    (cadc left right carry).toNat = (left + right + carry.toNat) / 2 ^ 64 := by
  have carried := addMod_add_carry leftBound rightBound
  have sumBound := @addMod_lt 64 left right
  unfold cadc
  generalize addMod 64 left right = sum at carried sumBound ⊢
  split_ifs at carried with wraps
  · have high := carry.toNat_le
    simp [wraps]
    omega
  · cases carry with
    | false =>
      simp [wraps]
      omega
    | true =>
      simp only [wraps, decide_false, Bool.true_and, Bool.false_or, Bool.toNat_true]
      by_cases full : sum = 2 ^ 64 - 1
      · simp [full]
        omega
      · rw [beq_eq_false_iff_ne.mpr full, Bool.toNat_false]
        omega

end Carries

private theorem product_lt_iff {p0 p1 p2 p3 : Nat} :
    p3 * 2 ^ 192 + p2 * 2 ^ 128 + p1 * 2 ^ 64 + p0 < 2 ^ 256 ↔ p3 / 2 ^ 64 = 0 ∧
        (p2 / 2 ^ 64 + p3 % 2 ^ 64 + (p1 / 2 ^ 64 + p2 % 2 ^ 64 +
            (p0 / 2 ^ 64 + p1 % 2 ^ 64) / 2 ^ 64) / 2 ^ 64) / 2 ^ 64 = 0 := by
  omega

section Words

variable {hash difficulty : Nat}

theorem checkHash64On_iff (platform : Platform) (bounded : hash < 2 ^ 256)
    (word : difficulty < 2 ^ 64) :
    checkHash64On platform hash difficulty = true ↔ hash * difficulty < 2 ^ 256 := by
  have product : hash * difficulty = hashWord hash 3 * difficulty * 2 ^ 192 +
        hashWord hash 2 * difficulty * 2 ^ 128 +
        hashWord hash 1 * difficulty * 2 ^ 64 + hashWord hash 0 * difficulty := by
    conv_lhs => rw [hash_eq_words bounded]
    ring
  have high : ∀ index, hashWord hash index * difficulty / 2 ^ 64 < 2 ^ 64 := by
    intro index
    apply Nat.div_lt_of_lt_mul
    exact Nat.mul_lt_mul'' (hashWord_lt hash index) word
  have low : ∀ index, hashWord hash index * difficulty % 2 ^ 64 < 2 ^ 64 :=
    fun index => Nat.mod_lt _ (by decide)
  rw [product, product_lt_iff, ← cadd_toNat (high 0) (low 1),
    ← cadc_toNat (high 1) (low 2), ← cadc_toNat (high 2) (low 3)]
  simp only [checkHash64On, platform_mul_eq platform (hashWord_lt hash _) word, WideWord.ofNat]
  split_ifs with top
  · exact ⟨False.elim, fun zero => absurd zero.1 top⟩
  · rw [not_not] at top
    rw [and_iff_right top, Bool.toNat_eq_zero, Bool.not_eq_true']

theorem checkHash128Words_iff (bounded : hash < 2 ^ 256) :
    checkHash128Words hash difficulty = true ↔ hash * difficulty < 2 ^ 256 := by
  rw [checkHash128Words, hashVal_eq bounded, decide_eq_true_iff]
  omega

/-- `check_hash` accepts exactly the hashes whose product with the difficulty is below `2 ^ 256`.
-/
theorem checkHashOn_iff (platform : Platform) (bounded : hash < 2 ^ 256) :
    (checkHashOn platform hash difficulty = true ↔ hash * difficulty < 2 ^ 256) ∧
      (difficulty < 2 ^ 64 → checkHash64On platform hash difficulty =
          checkHash128Words hash difficulty) := by
  constructor
  · unfold checkHashOn
    split_ifs with word
    · exact checkHash64On_iff platform bounded (by omega)
    · exact checkHash128Words_iff bounded
  · intro word
    rw [Bool.eq_iff_iff, checkHash64On_iff platform bounded word, checkHash128Words_iff bounded]

/-- At the first difficulty of two words the hash below `2 ^ 192` is the last to
pass. -/
theorem checkHashOn_edge : checkHashOn .other (2 ^ 192 - 1) (2 ^ 64) = true ∧
      checkHashOn .x8664 (2 ^ 192) (2 ^ 64) = false :=
  ⟨(checkHashOn_iff .other (by decide)).1.mpr (by decide), Bool.eq_false_iff.mpr fun accepted =>
      absurd ((checkHashOn_iff .x8664 (by decide)).1.mp accepted) (by decide)⟩

end Words

/-! ## The difficulty rule in 64 bits -/

variable (platform : Platform)

def nextDifficulty64 (assertions : Bool)
    (timestamps cumulativeDifficulties : List Nat) (targetSeconds : Nat) : Option Nat :=
  difficultyRule assertions 64 (fun totalWork timeSpan =>
    let product := platform.mul totalWork targetSeconds
    let sum := subMod 64 (addMod 64 product.low timeSpan) 1
    if product.high ≠ 0 ∨ sum < product.low then 0 else sum / timeSpan)
    timestamps cumulativeDifficulties

def nextDifficultyIn (assertions : Bool)
    (timestamps cumulativeDifficulties : List Nat) (targetSeconds : Nat) : Option Nat :=
  if assertions then nextDifficultyChecked timestamps cumulativeDifficulties targetSeconds
  else some (nextDifficulty timestamps cumulativeDifficulties targetSeconds)

/-- A product over a time span, rounded up, or zero when its numerator takes more
than 64 bits. -/
def quotientUp64 (work targetSeconds timeSpan : Nat) : Nat :=
  if 2 ^ 64 ≤ work * targetSeconds + (max 1 timeSpan - 1) then 0
  else (work * targetSeconds) ⌈/⌉ max 1 timeSpan

theorem quotient64_eq {work target timeSpan : Nat}
    (workBound : work < 2 ^ 64) (targetBound : target < 2 ^ 64)
    (spanBound : timeSpan < 2 ^ 64) :
    (let product := platform.mul work target
      let sum := subMod 64 (addMod 64 product.low (max 1 timeSpan)) 1
      if product.high ≠ 0 ∨ sum < product.low then 0
      else sum / max 1 timeSpan) =
      quotientUp64 work target timeSpan := by
  simp only [platform_mul_eq platform workBound targetBound, WideWord.ofNat]
  rw [quotientUp64, Nat.ceilDiv_eq_add_pred_div]
  generalize work * target = product
  have spanPos : 1 ≤ max 1 timeSpan := le_max_left 1 timeSpan
  have spanSmall : max 1 timeSpan < 2 ^ 64 := max_lt (by decide) spanBound
  generalize max 1 timeSpan = span at spanPos spanSmall ⊢
  have sum : subMod 64 (addMod 64 (product % 2 ^ 64) span) 1 =
      (product % 2 ^ 64 + span - 1) % 2 ^ 64 := by
    unfold subMod addMod
    omega
  rw [sum]
  by_cases fits : 2 ^ 64 ≤ product + (span - 1)
  · rw [if_pos fits, if_pos]
    omega
  · have small : product < 2 ^ 64 := by omega
    rw [if_neg fits, Nat.mod_eq_of_lt small, Nat.mod_eq_of_lt (by omega), if_neg]
    omega

section Window

variable {timestamps cumulativeDifficulties : List Nat}
  (sameLength : timestamps.length = cumulativeDifficulties.length)
  (times : ∀ time ∈ timestamps, time < 2 ^ 64)
  (words : ∀ work ∈ cumulativeDifficulties, work < 2 ^ 64)
  (ascending : cumulativeDifficulties.Pairwise (· ≤ ·))

include sameLength

include times words ascending

theorem nextDifficulty64_of_several (platform : Platform) (assertions : Bool)
    {target : Nat} (targetBound : target < 2 ^ 64)
    (several : 1 < (timestamps.take difficultyWindow).length) :
    nextDifficulty64 platform assertions timestamps cumulativeDifficulties target =
      if assertions ∧ windowWork cumulativeDifficulties = 0 then none
      else
        some (quotientUp64 (windowWork cumulativeDifficulties) target
          (windowTimeSpan timestamps)) := by
  have workBound : windowWork cumulativeDifficulties < 2 ^ 64 :=
    (Nat.sub_le _ _).trans_lt (getD_lt (by decide) (fun work mem => words work
      (List.mem_of_mem_take mem)) _)
  have spanBound : windowTimeSpan timestamps < 2 ^ 64 :=
    (Nat.sub_le _ _).trans_lt (getD_lt (by decide) (fun time mem => times time
      (List.mem_of_mem_take (mem_sortAscending.mp mem))) _)
  rw [nextDifficulty64, difficultyRule_of_several sameLength times words several
    (windowWork_related sameLength ascending several)]
  simp only [quotient64_eq platform workBound targetBound spanBound]

theorem nextDifficultyIn_of_several (assertions : Bool) (target : Nat)
    (several : 1 < (timestamps.take difficultyWindow).length)
    (worked : 0 < windowWork cumulativeDifficulties) :
    nextDifficultyIn assertions timestamps cumulativeDifficulties target =
      some (quotientUp (windowWork cumulativeDifficulties) target (windowTimeSpan timestamps)) := by
  have wide : ∀ work ∈ cumulativeDifficulties, work < 2 ^ 128 :=
    fun work mem => (words work mem).trans (by decide)
  cases assertions with
  | false =>
    rw [nextDifficultyIn, if_neg (by decide), nextDifficulty_of_several sameLength
      target wide several (windowWork_related sameLength ascending several)]
  | true =>
    rw [nextDifficultyIn, if_pos rfl,
      nextDifficultyChecked_of_several sameLength times wide target several worked]

end Window

theorem quotientUp64_spec (work target timeSpan : Nat) :
    (quotientUp64 work target timeSpan ≠ 0 → quotientUp64 work target timeSpan =
        quotientUp work target timeSpan) ∧
    (quotientUp64 work target timeSpan = 0 ↔ work * target = 0 ∨
        2 ^ 64 ≤ work * target + (max 1 timeSpan - 1)) := by
  have spanPos : 1 ≤ max 1 timeSpan := le_max_left 1 timeSpan
  unfold quotientUp64 quotientUp
  generalize work * target = product
  generalize max 1 timeSpan = span at spanPos ⊢
  rcases lt_or_ge (product + (span - 1)) (2 ^ 64) with fits | large
  · have bound : product ⌈/⌉ span ≤ product + span - 1 := by exact Nat.div_le_self _ _
    rw [if_neg (by omega), if_neg (by omega)]
    refine ⟨fun _ => rfl, ?_⟩
    rcases eq_zero_or_pos product with rfl | pos
    · simp
    · have := ceilDiv_pos_of_pos pos spanPos
      omega
  · rw [if_pos large]
    exact ⟨fun ne => absurd rfl ne, fun _ => .inr large, fun _ => rfl⟩

/-- A nonzero `next_difficulty_64` is the `next_difficulty` of the same build. It is zero for a
window with no work, a target of zero or a numerator of more than 64 bits; assertions leave no
result for a window with no work. -/
theorem nextDifficulty64_spec (platform : Platform) (assertions : Bool)
    {timestamps cumulativeDifficulties : List Nat} {targetSeconds : Nat}
    (sameLength : timestamps.length = cumulativeDifficulties.length)
    (times : ∀ time ∈ timestamps, time < 2 ^ 64)
    (words : ∀ work ∈ cumulativeDifficulties, work < 2 ^ 64)
    (ascending : cumulativeDifficulties.Pairwise (· ≤ ·)) (targetBound : targetSeconds < 2 ^ 64) :
    (nextDifficulty64 platform assertions timestamps cumulativeDifficulties targetSeconds = none ↔
      assertions = true ∧ 1 < (timestamps.take difficultyWindow).length ∧
        windowWork cumulativeDifficulties = 0) ∧
    ∀ value, nextDifficulty64 platform assertions timestamps
        cumulativeDifficulties targetSeconds = some value →
      (value ≠ 0 → nextDifficultyIn assertions timestamps cumulativeDifficulties
        targetSeconds = some value) ∧ (value = 0 ↔ 1 < (timestamps.take difficultyWindow).length ∧
        (windowWork cumulativeDifficulties * targetSeconds = 0 ∨
          2 ^ 64 ≤ windowWork cumulativeDifficulties * targetSeconds +
            (max 1 (windowTimeSpan timestamps) - 1))) := by
  by_cases few : (timestamps.take difficultyWindow).length ≤ 1
  · have one : nextDifficultyIn assertions timestamps cumulativeDifficulties
        targetSeconds = some 1 := by
      cases assertions with
      | false => rw [nextDifficultyIn, if_neg (by decide), nextDifficulty, if_pos few]
      | true => rw [nextDifficultyIn, if_pos rfl, nextDifficultyChecked,
          difficultyRule_eq sameLength, if_pos few]
    rw [nextDifficulty64, difficultyRule_eq sameLength, if_pos few]
    refine ⟨iff_of_false (by simp) (by omega), ?_⟩
    rintro value ⟨⟩
    exact ⟨fun _ => one, by omega⟩
  · have several : 1 < (timestamps.take difficultyWindow).length := by omega
    obtain ⟨agrees, zero⟩ := quotientUp64_spec _ targetSeconds _
    rw [nextDifficulty64_of_several sameLength times words ascending platform
      assertions targetBound several]
    split_ifs with failed
    · exact ⟨⟨fun _ => ⟨failed.1, several, failed.2⟩, fun _ => rfl⟩, fun value no => by cases no⟩
    · refine ⟨iff_of_false (by simp) fun wrong => failed ⟨wrong.1, wrong.2.2⟩, ?_⟩
      rintro value ⟨⟩
      refine ⟨fun nonzero => ?_, ?_⟩
      · have worked : 0 < windowWork cumulativeDifficulties := by
          by_contra none_
          refine nonzero (zero.mpr (.inl ?_))
          rw [Nat.eq_zero_of_not_pos none_, zero_mul]
        rw [nextDifficultyIn_of_several sameLength times words ascending assertions
          targetSeconds several worked, agrees nonzero]
      · rw [zero]
        exact ⟨fun shape => ⟨several, shape⟩, And.right⟩

theorem twoBlocks_nextDifficulty64 :
    nextDifficulty64 .x8664 true [1060, 1000] [7, 107] 120 = some 200 ∧
      nextDifficultyIn true [1060, 1000] [7, 107] 120 = some 200 := by
  have value : nextDifficulty64 .x8664 true [1060, 1000] [7, 107] 120 = some 200 := by
    decide +kernel
  exact ⟨value, ((nextDifficulty64_spec .x8664 true (by rfl) (by decide) (by decide)
    (by decide) (by decide)).2 200 value).1 (by decide)⟩

/-- With a target of zero the result is zero, although nothing overflows. -/
theorem nextDifficulty64_zeroTarget :
    nextDifficulty64 .x8664 true [1060, 1000] [7, 107] 0 = some 0 ∧
      windowWork [7, 107] * 0 + (max 1 (windowTimeSpan [1060, 1000]) - 1) < 2 ^ 64 := by
  decide +kernel

end LodeChain

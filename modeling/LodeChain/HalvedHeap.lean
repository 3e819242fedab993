import Mathlib.Data.Nat.Init

/-!
# Heaps above a common top

The parent of a node has half its number; number zero stands above the root.
-/

namespace HalvedHeap

variable {α : Type*} {le : α → α → Prop} {size hole : Nat} {nodes : Nat → α}

def exchange (nodes : Nat → α) (first second index : Nat) : α :=
  if index = first then nodes second
  else if index = second then nodes first
  else nodes index

@[simp]
theorem exchange_first (first second : Nat) : exchange nodes first second first = nodes second :=
  if_pos rfl

@[simp]
theorem exchange_second (first second : Nat) :
    exchange nodes first second second = nodes first := by
  unfold exchange
  split
  · rename_i same
    rw [same]
  · exact if_pos rfl

theorem exchange_of_ne {first second index : Nat} (notFirst : index ≠ first)
    (notSecond : index ≠ second) : exchange nodes first second index = nodes index := by
  rw [exchange, if_neg notFirst, if_neg notSecond]

def Ordered (le : α → α → Prop) (size : Nat) (nodes : Nat → α) : Prop :=
  ∀ index, 0 < index → index ≤ size → le (nodes (index / 2)) (nodes index)

def OrderedBelowRoot (le : α → α → Prop) (size : Nat) (nodes : Nat → α) : Prop :=
  ∀ index, 1 < index → index ≤ size → le (nodes (index / 2)) (nodes index)

theorem Ordered.belowRoot (ordered : Ordered le size nodes) : OrderedBelowRoot le size nodes :=
  fun index pos lt => ordered index (by omega) lt

theorem OrderedBelowRoot.ordered (below : OrderedBelowRoot le size nodes)
    (root : 0 < size → le (nodes 0) (nodes 1)) : Ordered le size nodes := by
  intro index pos lt
  obtain rfl | later : index = 1 ∨ 1 < index := by omega
  · exact root lt
  · exact below index later lt

theorem OrderedBelowRoot.congr {others : Nat → α} (below : OrderedBelowRoot le size nodes)
    (same : ∀ index, 0 < index → others index = nodes index) : OrderedBelowRoot le size others := by
  intro index later lt
  rw [same index (by omega), same _ (by omega)]
  exact below index later lt

structure RisesAt (le : α → α → Prop) (size : Nat) (nodes : Nat → α) (hole : Nat) : Prop where
  others : ∀ index, 0 < index → index ≤ size → index ≠ hole → le (nodes (index / 2)) (nodes index)
  below : ∀ index, 0 < index → index ≤ size → index / 2 = hole → le (nodes (hole / 2)) (nodes index)

structure SinksAt (le : α → α → Prop) (size : Nat) (nodes : Nat → α) (hole : Nat) : Prop where
  others : ∀ index, 0 < index → index ≤ size → index / 2 ≠ hole →
    le (nodes (index / 2)) (nodes index)
  below : ∀ index, 0 < index → index ≤ size → index / 2 = hole → le (nodes (hole / 2)) (nodes index)

theorem RisesAt.ordered (rises : RisesAt le size nodes hole)
    (placed : 0 < hole → hole ≤ size → le (nodes (hole / 2)) (nodes hole)) :
    Ordered le size nodes := by
  intro index pos lt
  by_cases same : index = hole
  · subst same
    exact placed pos lt
  · exact rises.others index pos lt same

theorem SinksAt.ordered (sinks : SinksAt le size nodes hole)
    (placed : ∀ index, 0 < index → index ≤ size → index / 2 = hole →
      le (nodes hole) (nodes index)) : Ordered le size nodes := by
  intro index pos lt
  by_cases child : index / 2 = hole
  · rw [child]
    exact placed index pos lt child
  · exact sinks.others index pos lt child

section Steps

variable (trans : ∀ {first second third : α}, le first second → le second third → le first third)

include trans

theorem RisesAt.exchange (rises : RisesAt le size nodes hole)
    (pos : 0 < hole) (before : le (nodes hole) (nodes (hole / 2))) :
    RisesAt le size (HalvedHeap.exchange nodes hole (hole / 2)) (hole / 2) where
  others := by
    intro index indexPositive lt ne
    have edge := rises.others index indexPositive lt
    have below := rises.below index indexPositive lt
    unfold HalvedHeap.exchange
    by_cases same : index = hole
    · subst same
      rw [if_neg (by omega), if_pos rfl, if_pos rfl]
      exact before
    · rw [if_neg same, if_neg ne]
      by_cases child : index / 2 = hole
      · rw [if_pos child]
        exact below child
      · rw [if_neg child]
        by_cases sibling : index / 2 = hole / 2
        · rw [if_pos sibling]
          rw [sibling] at edge
          exact trans before (edge same)
        · rw [if_neg sibling]
          exact edge same
  below := by
    intro index indexPositive lt sibling
    unfold HalvedHeap.exchange
    by_cases root : hole / 2 = 0
    · obtain rfl : index = hole := by omega
      rw [if_neg (by omega), if_pos (by omega), if_pos rfl]
      exact before
    · have above := rises.others (hole / 2) (by omega) (by omega) (by omega)
      rw [if_neg (by omega), if_neg (by omega)]
      by_cases same : index = hole
      · rw [if_pos same]
        exact above
      · have edge := rises.others index indexPositive lt same
        rw [sibling] at edge
        rw [if_neg same, if_neg (by omega)]
        exact trans above edge

omit trans in
theorem SinksAt.exchange (sinks : SinksAt le size nodes hole)
    (pos : 0 < hole) {child : Nat} (lt : child ≤ size) (isChild : child / 2 = hole)
    (first : ∀ index, 0 < index → index ≤ size → index / 2 = hole → le (nodes child) (nodes index))
    (before : le (nodes child) (nodes hole)) :
    SinksAt le size (HalvedHeap.exchange nodes child hole) child where
  others := by
    intro index indexPositive indexInside ne
    unfold HalvedHeap.exchange
    rw [if_neg ne]
    by_cases sibling : index / 2 = hole
    · rw [if_pos sibling]
      by_cases same : index = child
      · rw [if_pos same]
        exact before
      · rw [if_neg same, if_neg (by omega)]
        exact first index indexPositive indexInside sibling
    · rw [if_neg sibling]
      by_cases same : index = hole
      · subst same
        rw [if_neg (by omega), if_pos rfl]
        exact sinks.below child (by omega) lt isChild
      · rw [if_neg (by omega), if_neg same]
        exact sinks.others index indexPositive indexInside sibling
  below := by
    intro index indexPositive indexInside grandchild
    have edge := sinks.others index indexPositive indexInside (by omega)
    rw [grandchild] at edge
    unfold HalvedHeap.exchange
    rw [isChild, if_neg (by omega), if_pos rfl, if_neg (by omega),
      if_neg (by omega)]
    exact edge

omit trans in
theorem OrderedBelowRoot.exchange (below : OrderedBelowRoot le size nodes)
    (before : le (nodes 1) (nodes 0)) : SinksAt le size (HalvedHeap.exchange nodes 1 0) 1 where
  others := by
    intro index pos lt ne
    obtain rfl | later : index = 1 ∨ 1 < index := by omega
    · rw [exchange_first]
      exact before
    · rw [exchange_of_ne (by omega) (by omega),
        exchange_of_ne (by omega) (by omega)]
      exact below index later lt
  below := by
    intro index pos lt child
    have edge := below index (by omega) lt
    rw [child] at edge
    rw [exchange_second,
      exchange_of_ne (by omega) (by omega)]
    exact edge

end Steps

section Top

variable (refl : ∀ value : α, le value value) (trans : ∀ {first second third : α},
    le first second → le second third → le first third)

include refl trans

variable {index : Nat}

theorem Ordered.above_le (ordered : Ordered le size nodes) {top : Nat}
    (above : ∀ index, top < index → index ≤ size → top ≤ index / 2) (lower : top ≤ index)
    (lt : index ≤ size) : le (nodes top) (nodes index) := by
  induction index using Nat.strong_induction_on with
  | _ index ih =>
    obtain rfl | below := Nat.eq_or_lt_of_le lower
    · exact refl _
    · exact trans (ih _ (by omega) (above index below lt) (by omega)) (ordered index (by omega) lt)

theorem Ordered.top_le (ordered : Ordered le size nodes) (lt : index ≤ size) :
    le (nodes 0) (nodes index) :=
  ordered.above_le refl trans (fun _ _ _ => Nat.zero_le _) (Nat.zero_le _) lt

theorem Ordered.root_le (ordered : Ordered le size nodes)
    (pos : 0 < index) (lt : index ≤ size) : le (nodes 1) (nodes index) :=
  ordered.above_le refl trans (fun _ _ _ => by omega) pos lt

end Top

end HalvedHeap

import LodeChain.HalvedHeap
import Mathlib.Order.Lattice
import Mathlib.Tactic.Common

/-!
# The rolling median

`epee::misc_utils::rolling_median_t` keeps the last items in a ring.
-/

namespace LodeChain

inductive Side
  | min
  | max
  deriving DecidableEq, Repr

namespace Side

def position : Side → Nat → Int
  | min, node => node
  | max, node => -node

def other : Side → Side
  | min => max
  | max => min

end Side

structure RollingMedian (Item : Type*) where
  capacity : Nat
  data : Nat → Item
  pos : Nat → Int
  heap : Int → Nat
  idx : Nat
  minCt : Nat
  maxCt : Nat
  sz : Nat

namespace RollingMedian

variable {Item : Type*}

def fillPosition (slot : Nat) : Int :=
  ((slot + 1) / 2 : Nat) * if slot % 2 = 1 then -1 else 1

def fillSlot (position : Int) : Nat :=
  if position < 0 then 2 * position.natAbs - 1 else 2 * position.natAbs

variable (rm : RollingMedian Item)

def clear : RollingMedian Item :=
  { rm with
    pos := fillPosition
    heap := fillSlot
    idx := 0
    minCt := 0
    maxCt := 0
    sz := 0 }

def new (capacity : Nat) (data : Nat → Item) : RollingMedian Item :=
  clear ⟨capacity, data, fun _ => 0, fun _ => 0, 0, 0, 0, 0⟩

def size : Nat :=
  rm.sz

def item (position : Int) : Item :=
  rm.data (rm.heap position)

def mmexchange (i j : Int) : RollingMedian Item :=
  let heap := Function.update (Function.update rm.heap i (rm.heap j)) j (rm.heap i)
  { rm with
    heap := heap
    pos := Function.update (Function.update rm.pos (heap i) i) (heap j) j }

def count : Side → Nat
  | .min => rm.minCt
  | .max => rm.maxCt

@[simp]
theorem count_mmexchange (i j : Int) : (rm.mmexchange i j).count = rm.count := by
  funext side
  cases side <;> rfl

variable [LinearOrder Item] (rm : RollingMedian Item)

def mmless (i j : Int) : Bool :=
  decide (rm.item i < rm.item j)

/-- Smaller in the heap of the larger items, larger in the other one. -/
def precedes : Side → Nat → Nat → Bool
  | .min, node, parent => rm.mmless node parent
  | .max, node, parent => rm.mmless (-parent) (-node)

def firstChild (side : Side) (node : Nat) : Nat :=
  if 2 * node < rm.count side && rm.precedes side (2 * node + 1) (2 * node) then 2 * node + 1
  else 2 * node

theorem firstChild_div_two (side : Side) (node : Nat) : rm.firstChild side node / 2 = node := by
  unfold firstChild
  split <;> omega

def sortDown (side : Side) (rm : RollingMedian Item) (node : Nat)
    (positive : 0 < node) : RollingMedian Item :=
  if 2 * node ≤ rm.count side then
    if rm.precedes side (rm.firstChild side node) node then
      sortDown side (rm.mmexchange (side.position (rm.firstChild side node)) (side.position node))
        (rm.firstChild side node)
        (by have := rm.firstChild_div_two side node; omega)
    else rm
  else rm
termination_by rm.count side - node
decreasing_by
  have := rm.firstChild_div_two side node
  rw [count_mmexchange]
  omega

def sortUp (side : Side) (rm : RollingMedian Item) (node : Nat) : RollingMedian Item × Bool :=
  if 0 < node ∧ rm.precedes side node (node / 2) then
    sortUp side (rm.mmexchange (side.position node) (side.position (node / 2))) (node / 2)
  else (rm, node == 0)
termination_by node
decreasing_by omega

def minSortDown (i : Nat) (positive : 0 < i) : RollingMedian Item :=
  sortDown .min rm i positive

def maxSortDown (i : Nat) (positive : 0 < i) : RollingMedian Item :=
  sortDown .max rm i positive

def minSortUp (i : Nat) : RollingMedian Item × Bool :=
  sortUp .min rm i

def maxSortUp (i : Nat) : RollingMedian Item × Bool :=
  sortUp .max rm i

def riseInMin (p : Nat) : RollingMedian Item :=
  let (risen, changed) := rm.minSortUp p
  if changed && risen.mmless 0 (-1) then (risen.mmexchange 0 (-1)).maxSortDown 1 Nat.one_pos
  else risen

def riseInMax (p : Nat) : RollingMedian Item :=
  let (risen, changed) := rm.maxSortUp p
  if changed && decide (risen.minCt ≠ 0) && risen.mmless 1 0 then
    (risen.mmexchange 1 0).minSortDown 1 Nat.one_pos
  else risen

def settleMedian : RollingMedian Item :=
  let lowered := if rm.maxCt ≠ 0 then
      let (risen, changed) := rm.maxSortUp 1
      if changed then risen.maxSortDown 1 Nat.one_pos else risen
    else rm
  if lowered.minCt ≠ 0 then
    let (risen, changed) := lowered.minSortUp 1
    if changed then risen.minSortDown 1 Nat.one_pos else risen
  else lowered

def insert (v : Item) : RollingMedian Item :=
  let p := rm.pos rm.idx
  let old := rm.data rm.idx
  let stored := { rm with
      data := Function.update rm.data rm.idx v
      idx := (rm.idx + 1) % rm.capacity
      sz := min (rm.sz + 1) rm.capacity }
  if larger : 0 < p then
    if stored.minCt < (stored.capacity - 1) / 2 then
      { stored with minCt := stored.minCt + 1 }.riseInMin p.toNat
    else if old < v then stored.minSortDown p.toNat (by omega)
    else stored.riseInMin p.toNat
  else if smaller : p < 0 then
    if stored.maxCt < stored.capacity / 2 then
      { stored with maxCt := stored.maxCt + 1 }.riseInMax (-p).toNat
    else if v < old then stored.maxSortDown (-p).toNat (by omega)
    else stored.riseInMax (-p).toNat
  else stored.settleMedian

def median (getMid : Item → Item → Item) (rm : RollingMedian Item) : Item :=
  if rm.minCt < rm.maxCt then getMid (rm.item 0) (rm.item (-1))
  else rm.item 0

end RollingMedian

/-! ## Where the items of a rolling median are -/

namespace Side

@[simp]
theorem position_zero (side : Side) : side.position 0 = 0 := by
  cases side <;> rfl

@[simp]
theorem position_inj {side : Side} {first second : Nat} :
    side.position first = side.position second ↔ first = second := by
  cases side <;> simp only [position] <;> omega

theorem position_other_ne (side : Side) {first : Nat} (second : Nat) (pos : 0 < first) :
    side.other.position first ≠ side.position second := by
  cases side <;> simp [position, other] <;> omega

end Side

namespace RollingMedian

variable {Item : Type*} {rm after : RollingMedian Item}

def InUse (rm : RollingMedian Item) (position : Int) : Prop :=
  0 < rm.sz ∧ -(rm.maxCt : Int) ≤ position ∧ position ≤ rm.minCt

def view (rm : RollingMedian Item) (side : Side) (node : Nat) : Item :=
  rm.item (side.position node)

@[simp]
theorem view_zero (rm : RollingMedian Item) (side : Side) : rm.view side 0 = rm.item 0 := by
  rw [view, Side.position_zero]

structure Layout (rm : RollingMedian Item) : Prop where
  filled : ∀ slot, slot < rm.sz → rm.InUse (rm.pos slot) ∧ rm.heap (rm.pos slot) = slot
  placed : ∀ position, rm.InUse position →
    rm.heap position < rm.sz ∧ rm.pos (rm.heap position) = position
  unfilled : ∀ slot, rm.sz ≤ slot → slot < rm.capacity →
    rm.pos slot = fillPosition slot ∧ rm.heap (fillPosition slot) = slot

theorem inUse_position {side : Side} {node : Nat} (ne : 0 < rm.sz)
    (lt : node ≤ rm.count side) : rm.InUse (side.position node) := by
  refine ⟨ne, ?_⟩
  cases side <;> simp [Side.position, count] at * <;> omega

theorem le_count_of_inUse {side : Side} {node : Nat} (inUse : rm.InUse (side.position node)) :
    node ≤ rm.count side := by
  obtain ⟨-, low, high⟩ := inUse
  cases side <;> simp [Side.position, count] at * <;> omega

structure SameItems (rm after : RollingMedian Item) : Prop where
  capacity : after.capacity = rm.capacity
  data : after.data = rm.data
  idx : after.idx = rm.idx
  sz : after.sz = rm.sz
  count : after.count = rm.count
  layout : after.Layout

variable {middle : RollingMedian Item} {i j : Int}

theorem SameItems.trans
    (first : SameItems rm middle) (second : SameItems middle after) : SameItems rm after where
  capacity := second.capacity.trans first.capacity
  data := second.data.trans first.data
  idx := second.idx.trans first.idx
  sz := second.sz.trans first.sz
  count := second.count.trans first.count
  layout := second.layout

structure Rearranged (side : Side) (rm after : RollingMedian Item) : Prop
    extends SameItems rm after where
  others : ∀ node, 0 < node → after.view side.other node = rm.view side.other node

theorem Rearranged.refl (side : Side) (layout : rm.Layout) : Rearranged side rm rm :=
  ⟨⟨rfl, rfl, rfl, rfl, rfl, layout⟩, fun _ _ => rfl⟩

theorem Rearranged.trans {side : Side}
    (first : Rearranged side rm middle) (second : Rearranged side middle after) :
    Rearranged side rm after where
  toSameItems := first.toSameItems.trans second.toSameItems
  others := fun node pos => (second.others node pos).trans (first.others node pos)

theorem heap_mmexchange (i j position : Int) :
    (rm.mmexchange i j).heap position = if position = j then rm.heap i
      else if position = i then rm.heap j
      else rm.heap position := by
  simp only [mmexchange, Function.update_apply]

theorem item_mmexchange (i j position : Int) :
    (rm.mmexchange i j).item position = if position = i then rm.item j
      else if position = j then rm.item i
      else rm.item position := by
  unfold item
  rw [heap_mmexchange]
  change rm.data _ = _
  split_ifs <;> simp_all

theorem pos_mmexchange (i j : Int) (slot : Nat) :
    (rm.mmexchange i j).pos slot = if slot = rm.heap i then j
      else if slot = rm.heap j then i
      else rm.pos slot := by
  simp only [mmexchange, Function.update_apply]
  split_ifs <;> simp_all

theorem Layout.mmexchange (layout : rm.Layout) (first : rm.InUse i)
    (second : rm.InUse j) : (rm.mmexchange i j).Layout where
  filled := by
    intro slot lt
    have place := layout.filled slot lt
    rw [pos_mmexchange, heap_mmexchange]
    change rm.InUse _ ∧ _
    split_ifs <;> grind
  placed := by
    intro position inUse
    have place := layout.placed position inUse
    have firstPlace := layout.placed i first
    have secondPlace := layout.placed j second
    rw [pos_mmexchange, heap_mmexchange]
    change _ < rm.sz ∧ _
    split_ifs <;> grind
  unfilled := by
    intro slot outside lt
    have place := layout.unfilled slot outside lt
    have firstPlace := layout.placed i first
    have secondPlace := layout.placed j second
    rw [pos_mmexchange, heap_mmexchange]
    change rm.sz ≤ slot at outside
    split_ifs <;> grind

section Exchange

variable {side : Side} {first second : Nat}

theorem view_mmexchange (side : Side) (first second : Nat) :
    (rm.mmexchange (side.position first) (side.position second)).view side =
      HalvedHeap.exchange (rm.view side) first second := by
  funext node
  simp [view, item_mmexchange, Side.position_inj, HalvedHeap.exchange]

theorem rearranged_mmexchange (layout : rm.Layout) (ne : 0 < rm.sz)
    (firstInside : first ≤ rm.count side) (secondInside : second ≤ rm.count side) :
    Rearranged side rm (rm.mmexchange (side.position first) (side.position second)) where
  capacity := rfl
  data := rfl
  idx := rfl
  sz := rfl
  count := rm.count_mmexchange _ _
  layout := layout.mmexchange (inUse_position ne firstInside) (inUse_position ne secondInside)
  others := by
    intro node pos
    rw [view, item_mmexchange, if_neg (side.position_other_ne first pos),
      if_neg (side.position_other_ne second pos)]
    rfl

theorem mmexchange_comm (ne : rm.heap i ≠ rm.heap j) : rm.mmexchange i j = rm.mmexchange j i := by
  have heaps : (rm.mmexchange i j).heap = (rm.mmexchange j i).heap := by
    funext position
    rw [heap_mmexchange, heap_mmexchange]
    split_ifs <;> simp_all
  have places : (rm.mmexchange i j).pos = (rm.mmexchange j i).pos := by
    funext slot
    rw [pos_mmexchange, pos_mmexchange]
    split_ifs <;> simp_all
  change RollingMedian.mk _ _ _ _ _ _ _ _ = RollingMedian.mk _ _ _ _ _ _ _ _
  congr 1

end Exchange

end RollingMedian

/-! ## How a rolling median takes a new item -/

open HalvedHeap

variable {Item : Type*} [LinearOrder Item]

namespace Side

def Outward : Side → Item → Item → Prop
  | min, inner, outer => inner ≤ outer
  | max, inner, outer => outer ≤ inner

variable {side : Side} {first second third : Item}

theorem outward_refl (side : Side) (value : Item) : side.Outward value value := by
  cases side <;> exact le_refl value

theorem outward_trans (left : side.Outward first second) (right : side.Outward second third) :
    side.Outward first third := by
  cases side
  · exact le_trans left right
  · exact le_trans right left

theorem outward_of_not (reversed : ¬side.Outward first second) : side.Outward second first := by
  cases side <;> exact le_of_not_ge reversed

theorem outward_other : side.other.Outward first second ↔ side.Outward second first := by
  cases side <;> rfl

@[simp]
theorem other_other (side : Side) : side.other.other = side := by
  cases side <;> rfl

theorem forall_iff (side : Side) {property : Side → Prop} :
    (∀ either, property either) ↔ property side ∧ property side.other := by
  refine ⟨fun every => ⟨every _, every _⟩, ?_⟩
  rintro ⟨own, other⟩ either
  cases side <;> cases either <;> assumption

end Side

namespace RollingMedian

variable {rm after : RollingMedian Item} {side : Side} {node : Nat}

theorem precedes_iff {parent : Nat} : rm.precedes side node parent = true ↔
      ¬side.Outward (rm.view side parent) (rm.view side node) := by
  cases side <;>
    simp [precedes, mmless, view, Side.Outward, Side.position]

def SideOrdered (rm : RollingMedian Item) (side : Side) : Prop :=
  Ordered side.Outward (rm.count side) (rm.view side)

def SideSinks (rm : RollingMedian Item) (side : Side) (node : Nat) : Prop :=
  SinksAt side.Outward (rm.count side) (rm.view side) node

def SideRises (rm : RollingMedian Item) (side : Side) (node : Nat) : Prop :=
  RisesAt side.Outward (rm.count side) (rm.view side) node

section Down

theorem firstChild_le (lt : 2 * node ≤ rm.count side) :
    rm.firstChild side node ≤ rm.count side := by
  unfold firstChild
  split
  · rename_i chosen
    simp at chosen
    omega
  · exact lt

theorem outward_firstChild {child : Nat} (lt : child ≤ rm.count side) (isChild : child / 2 = node) :
    side.Outward (rm.view side (rm.firstChild side node)) (rm.view side child) := by
  unfold firstChild
  split
  · rename_i chosen
    simp [precedes_iff] at chosen
    obtain rfl | rfl : child = 2 * node ∨ child = 2 * node + 1 := by omega
    · exact Side.outward_of_not chosen.2
    · exact Side.outward_refl _ _
  · rename_i chosen
    obtain rfl | rfl : child = 2 * node ∨ child = 2 * node + 1 := by omega
    · exact Side.outward_refl _ _
    · simp only [Bool.and_eq_true, decide_eq_true_eq, precedes_iff] at chosen
      by_contra wrong
      exact chosen ⟨by omega, wrong⟩

theorem sortDown_spec (pos : 0 < node) (layout : rm.Layout)
    (ne : 0 < rm.sz) (lt : node ≤ rm.count side) (sinks : rm.SideSinks side node) :
    Rearranged side rm (sortDown side rm node pos) ∧
      (sortDown side rm node pos).SideOrdered side ∧
      (sortDown side rm node pos).item 0 = rm.item 0 := by
  fun_induction sortDown with
  | case1 rm node pos hasChild precedes ih =>
    have half := rm.firstChild_div_two side node
    have childInside := firstChild_le hasChild
    have moved := rearranged_mmexchange layout ne childInside lt
    have outward := Side.outward_of_not (precedes_iff.mp precedes)
    have next : (rm.mmexchange (side.position (rm.firstChild side node))
        (side.position node)).SideSinks side (rm.firstChild side node) := by
      unfold SideSinks
      rw [view_mmexchange]
      exact sinks.exchange pos childInside half
        (fun child _ lt isChild => outward_firstChild lt isChild)
        outward
    obtain ⟨rearranged, ordered, median⟩ := ih moved.layout ne (by rwa [moved.count]) next
    refine ⟨moved.trans rearranged, ordered, median.trans ?_⟩
    rw [← view_zero _, view_mmexchange, exchange_of_ne (by omega) (by omega), view_zero]
  | case2 rm node pos hasChild stays =>
    refine ⟨.refl side layout, sinks.ordered ?_, rfl⟩
    intro child _ childInside isChild
    rw [precedes_iff, not_not] at stays
    exact Side.outward_trans stays (outward_firstChild childInside isChild)
  | case3 rm node pos noChild =>
    refine ⟨.refl side layout, sinks.ordered ?_, rfl⟩
    intro child _ childInside isChild
    omega

end Down

section Up

@[simp]
theorem sortUp_zero (rm : RollingMedian Item) (side : Side) : sortUp side rm 0 = (rm, true) := by
  unfold sortUp
  simp

theorem sortUp_spec (layout : rm.Layout) (ne : 0 < rm.sz)
    (lt : node ≤ rm.count side) (rises : rm.SideRises side node) :
    Rearranged side rm (sortUp side rm node).1 ∧ (sortUp side rm node).1.SideOrdered side ∧
      ((sortUp side rm node).2 = true → (sortUp side rm node).1.item 0 = rm.view side node ∧
          (0 < node → (sortUp side rm node).1.view side 1 = rm.item 0)) ∧
      ((sortUp side rm node).2 = false → (sortUp side rm node).1.item 0 = rm.item 0) := by
  fun_induction sortUp with
  | case1 rm node precedes ih =>
    obtain ⟨pos, precedes⟩ := precedes
    have moved := rearranged_mmexchange layout ne lt (show node / 2 ≤ rm.count side by omega)
    have outward := Side.outward_of_not (precedes_iff.mp precedes)
    have next : (rm.mmexchange (side.position node)
        (side.position (node / 2))).SideRises side (node / 2) := by
      unfold SideRises
      rw [view_mmexchange]
      exact rises.exchange Side.outward_trans pos outward
    obtain ⟨rearranged, ordered, changed, kept⟩ :=
      ih moved.layout ne (by rw [moved.count]; omega) next
    have parent : (rm.mmexchange (side.position node)
        (side.position (node / 2))).view side (node / 2) = rm.view side node := by
      rw [view_mmexchange, exchange_second]
    rw [parent] at changed
    refine ⟨moved.trans rearranged, ordered, ?_⟩
    by_cases root : node / 2 = 0
    · obtain rfl : node = 1 := by omega
      simp only [root, sortUp_zero] at changed ⊢
      refine ⟨fun _ => ⟨(changed trivial).1, fun _ => ?_⟩, by simp⟩
      rw [view_mmexchange, exchange_first, view_zero]
    · have median : (rm.mmexchange (side.position node)
          (side.position (node / 2))).item 0 = rm.item 0 := by
        rw [← view_zero _, view_mmexchange, exchange_of_ne (by omega) (by omega), view_zero]
      rw [median] at changed kept
      exact ⟨fun top => ⟨(changed top).1, fun _ => (changed top).2 (by omega)⟩, kept⟩
  | case2 rm node stays =>
    refine ⟨.refl side layout, rises.ordered ?_, ?_, fun _ => rfl⟩
    · intro pos _
      by_contra wrong
      exact stays ⟨pos, precedes_iff.mpr wrong⟩
    · intro top
      obtain rfl : node = 0 := by simpa using top
      simp

end Up

def BelowRoot (rm : RollingMedian Item) (side : Side) : Prop :=
  OrderedBelowRoot side.Outward (rm.count side) (rm.view side)

theorem Rearranged.belowRoot (moved : Rearranged side rm after) (below : rm.BelowRoot side.other) :
    after.BelowRoot side.other := by
  unfold BelowRoot
  rw [moved.count]
  exact below.congr moved.others

def pull (side : Side) (rm : RollingMedian Item) : RollingMedian Item :=
  if rm.count side ≠ 0 then
    if (sortUp side rm 1).2 then sortDown side (sortUp side rm 1).1 1 Nat.one_pos
    else (sortUp side rm 1).1
  else rm

theorem sortUp_one (rm : RollingMedian Item) (side : Side) :
    sortUp side rm 1 = if rm.precedes side 1 0 then (rm.mmexchange (side.position 1) 0, true)
      else
        (rm, false) := by
  rw [sortUp]
  by_cases precedes : rm.precedes side 1 0
  · rw [if_pos ⟨Nat.one_pos, precedes⟩, if_pos precedes]
    exact (sortUp_zero _ side).trans (by simp)
  · rw [if_neg (fun both => precedes both.2), if_neg precedes]
    rfl

theorem pull_eq (side : Side) (rm : RollingMedian Item) :
    pull side rm = if 0 < rm.count side ∧ rm.precedes side 1 0 = true then
        sortDown side (rm.mmexchange (side.position 1) 0) 1 Nat.one_pos
      else
        rm := by
  rw [pull, sortUp_one]
  by_cases lt : 0 < rm.count side
  · rw [if_pos (Nat.pos_iff_ne_zero.mp lt)]
    by_cases precedes : rm.precedes side 1 0
    · rw [if_pos precedes, if_pos rfl, if_pos ⟨lt, precedes⟩]
    · rw [if_neg precedes, if_neg Bool.false_ne_true, if_neg (fun both => precedes both.2)]
  · rw [if_neg (by omega), if_neg (fun both => lt both.1)]

theorem pull_spec (layout : rm.Layout) (ne : 0 < rm.sz) (below : rm.BelowRoot side) :
    Rearranged side rm (pull side rm) ∧ (pull side rm).SideOrdered side ∧
      (pull side rm = rm ∨ 0 < rm.count side ∧ (pull side rm).item 0 = rm.view side 1) := by
  rw [pull_eq]
  split
  · rename_i both
    obtain ⟨lt, precedes⟩ := both
    have moved := rearranged_mmexchange layout ne (show 1 ≤ rm.count side from lt) (Nat.zero_le _)
    have outward := Side.outward_of_not (precedes_iff.mp precedes)
    have viewed := rm.view_mmexchange side 1 0
    rw [Side.position_zero] at moved viewed
    have sinks : (rm.mmexchange (side.position 1) 0).SideSinks side 1 := by
      unfold SideSinks
      rw [viewed]
      exact below.exchange outward
    obtain ⟨rearranged, ordered, median⟩ := sortDown_spec Nat.one_pos
      moved.layout ne (by rwa [moved.count]) sinks
    refine ⟨moved.trans rearranged, ordered, .inr ⟨lt, median.trans ?_⟩⟩
    rw [← view_zero _, viewed, exchange_second]
  · rename_i stays
    refine ⟨.refl side layout, below.ordered ?_, .inl rfl⟩
    intro lt
    by_contra wrong
    exact stays ⟨lt, precedes_iff.mpr wrong⟩

def rise (side : Side) (rm : RollingMedian Item) (node : Nat) : RollingMedian Item :=
  if (sortUp side rm node).2 then pull side.other (sortUp side rm node).1
  else (sortUp side rm node).1

/-- An item that may have to rise in its heap, with both heaps in their order
otherwise. -/
structure Rising (rm : RollingMedian Item) (side : Side) (node : Nat) : Prop where
  layout : rm.Layout
  nonempty : 0 < rm.sz
  positive : 0 < node
  inside : node ≤ rm.count side
  rises : rm.SideRises side node
  other : rm.SideOrdered side.other

theorem rise_spec (rising : rm.Rising side node) :
    SameItems rm (rise side rm node) ∧ ∀ either, (rise side rm node).SideOrdered either := by
  obtain ⟨layout, ne, pos, lt, rises, other⟩ := rising
  obtain ⟨risen, ordered, changed, kept⟩ := sortUp_spec layout ne lt rises
  unfold rise
  generalize sortUp side rm node = result at risen ordered changed kept ⊢
  obtain ⟨middle, top⟩ := result
  have below := risen.belowRoot other.belowRoot
  have count := congrFun risen.count
  cases top with
  | false =>
    refine ⟨risen.toSameItems, (Side.forall_iff side).mpr ⟨ordered, ?_⟩⟩
    refine below.ordered ?_
    intro root
    have edge := other 1 Nat.one_pos (by rwa [← count])
    rw [view_zero] at edge
    rw [view_zero, kept rfl, risen.others 1 Nat.one_pos]
    exact edge
  | true =>
    obtain ⟨median, neighbour⟩ := changed rfl
    obtain ⟨pulled, otherOrdered, moved⟩ := pull_spec risen.layout (by rwa [risen.sz]) below
    have own := pulled.others 1 Nat.one_pos
    have ownBelow := pulled.belowRoot (side.other_other.symm ▸ ordered.belowRoot)
    rw [Side.other_other] at own ownBelow
    refine ⟨risen.toSameItems.trans pulled.toSameItems,
      (Side.forall_iff side).mpr ⟨ownBelow.ordered ?_, otherOrdered⟩⟩
    intro _
    rw [view_zero, own]
    obtain unmoved | ⟨root, taken⟩ := moved
    · rw [unmoved]
      have edge := ordered 1 Nat.one_pos (by rw [count]; omega)
      rwa [view_zero] at edge
    · have edge := other 1 Nat.one_pos (by rwa [← count])
      rw [view_zero, Side.outward_other] at edge
      rw [taken, risen.others 1 Nat.one_pos, neighbour pos]
      exact edge

theorem riseInMax_eq (rm : RollingMedian Item) (node : Nat) :
    rm.riseInMax node = rise .max rm node := by
  unfold riseInMax rise maxSortUp
  generalize sortUp .max rm node = result
  obtain ⟨risen, changed⟩ := result
  cases changed with
  | false => rfl
  | true =>
    rw [if_pos rfl, pull_eq]
    refine if_congr ?_ rfl rfl
    rw [Bool.true_and, Bool.and_eq_true, decide_eq_true_eq, Nat.pos_iff_ne_zero]
    rfl

theorem riseInMin_eq (rising : rm.Rising .min node) (lt : 0 < rm.maxCt) :
    rm.riseInMin node = rise .min rm node := by
  obtain ⟨risen, -⟩ := sortUp_spec rising.layout rising.nonempty rising.inside rising.rises
  unfold riseInMin rise minSortUp
  generalize sortUp .min rm node = result at risen ⊢
  obtain ⟨middle, changed⟩ := result
  cases changed with
  | false => rfl
  | true =>
    have stays : 0 < middle.count .max := by
      rw [risen.count]
      exact lt
    have ne : 0 < middle.sz := by
      rw [risen.sz]
      exact rising.nonempty
    have median := risen.layout.placed _ (@inUse_position _ _ .max 0 ne (Nat.zero_le _))
    have root := risen.layout.placed _ (inUse_position ne stays)
    have different : middle.heap 0 ≠ middle.heap (-1) := by
      intro same
      have places := congrArg middle.pos same
      rw [show (0 : Int) = Side.max.position 0 from rfl,
        show (-1 : Int) = Side.max.position 1 from rfl, median.2, root.2,
        Side.position_inj] at places
      exact absurd places Nat.zero_ne_one
    rw [if_pos rfl, pull_eq]
    dsimp only
    rw [mmexchange_comm different]
    refine if_congr ?_ rfl rfl
    exact (and_iff_right stays).symm

theorem settleMedian_spec (layout : rm.Layout) (ne : 0 < rm.sz) (below : ∀ side, rm.BelowRoot side)
    (roots : 0 < rm.count .max → 0 < rm.count .min → rm.view .max 1 ≤ rm.view .min 1) :
    SameItems rm rm.settleMedian ∧ ∀ either, rm.settleMedian.SideOrdered either := by
  obtain ⟨lowered, lowOrdered, lowMoved⟩ := pull_spec layout ne (below .max)
  have highBelow : (pull .max rm).BelowRoot .min := lowered.belowRoot (below .min)
  obtain ⟨raised, highOrdered, highMoved⟩ := pull_spec lowered.layout
    (by rwa [lowered.sz]) highBelow
  have lowBelow := raised.belowRoot lowOrdered.belowRoot
  have lowRoot : (pull .min (pull .max rm)).view .max 1 =
      (pull .max rm).view .max 1 := raised.others 1 Nat.one_pos
  have highRoot : (pull .max rm).view .min 1 = rm.view .min 1 := lowered.others 1 Nat.one_pos
  refine ⟨lowered.toSameItems.trans raised.toSameItems,
    (Side.forall_iff .max).mpr ⟨lowBelow.ordered ?_, highOrdered⟩⟩
  intro root
  have lt : 0 < rm.count .max := by rwa [raised.count, lowered.count] at root
  have edge := lowOrdered 1 Nat.one_pos (by rwa [lowered.count])
  change (pull .min (pull .max rm)).view .max 1 ≤ (pull .min (pull .max rm)).view .max 0
  rw [lowRoot, view_zero]
  obtain unmoved | ⟨highInside, taken⟩ := highMoved
  · rw [unmoved]
    exact edge
  · rw [lowered.count] at highInside
    rw [taken, highRoot]
    obtain unmoved | ⟨-, lowTaken⟩ := lowMoved
    · rw [unmoved]
      exact roots lt highInside
    · exact le_trans (le_of_le_of_eq edge lowTaken) (roots lt highInside)

end RollingMedian

end LodeChain

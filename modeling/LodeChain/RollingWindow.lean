import LodeChain.Difficulty
import LodeChain.ListFacts
import LodeChain.RollingMedian

/-!
# The items a rolling median stands for

The ring holds the last inserted items, split by the heaps at the median.
-/

namespace LodeChain

open HalvedHeap

namespace RollingMedian

variable {Item : Type*} [LinearOrder Item] {rm after : RollingMedian Item}
  {side : Side} {node : Nat} {v : Item}

structure Settled (rm : RollingMedian Item) : Prop where
  positive : 0 < rm.capacity
  room : rm.sz ≤ rm.capacity
  larger : rm.minCt = (rm.sz - 1) / 2
  smaller : rm.maxCt = rm.sz / 2
  inRing : rm.idx < rm.capacity
  next : rm.sz < rm.capacity → rm.idx = rm.sz
  layout : rm.Layout
  ordered : ∀ side, rm.SideOrdered side

theorem fillPosition_eq (slot : Nat) :
    fillPosition slot = if slot % 2 = 1 then -(((slot + 1) / 2 : Nat) : Int)
      else ((slot + 1) / 2 : Nat) := by
  unfold fillPosition
  split <;> simp

theorem fillSlot_fillPosition (slot : Nat) : fillSlot (fillPosition slot) = slot := by
  rw [fillPosition_eq, fillSlot]
  split <;> split <;> omega

theorem settled_clear (rm : RollingMedian Item) (positive : 0 < rm.capacity) :
    rm.clear.Settled where
  positive := positive
  room := Nat.zero_le _
  larger := (Nat.zero_div 2).symm
  smaller := (Nat.zero_div 2).symm
  inRing := positive
  next := fun _ => rfl
  layout := by
    refine ⟨?_, ?_, ?_⟩
    · intro slot lt
      exact absurd lt (Nat.not_lt_zero slot)
    · intro position inUse
      exact absurd inUse.1 (lt_irrefl 0)
    · intro slot _ _
      exact ⟨rfl, fillSlot_fillPosition slot⟩
  ordered := by
    intro side index positive lt
    cases side <;> exact absurd (positive.trans_le lt) (lt_irrefl 0)

def store (rm : RollingMedian Item) (v : Item) : RollingMedian Item :=
  { rm with
    data := Function.update rm.data rm.idx v
    idx := (rm.idx + 1) % rm.capacity
    sz := min (rm.sz + 1) rm.capacity
    minCt := (min (rm.sz + 1) rm.capacity - 1) / 2
    maxCt := min (rm.sz + 1) rm.capacity / 2 }

section Store

variable (settled : rm.Settled)

include settled

theorem store_sz_pos : 0 < (rm.store v).sz :=
  Nat.lt_min.mpr ⟨Nat.succ_pos _, settled.positive⟩

theorem inUse_store {position : Int} :
    (rm.store v).InUse position ↔ rm.InUse position ∨ position = rm.pos rm.idx := by
  have := settled.larger
  have := settled.smaller
  simp [InUse, store]
  obtain full | fresh := eq_or_lt_of_le settled.room
  · have own := (settled.layout.filled rm.idx (by have := settled.inRing; omega)).1
    simp [InUse] at own
    omega
  · have slot := settled.next fresh
    have place := (settled.layout.unfilled rm.idx slot.ge settled.inRing).1
    rw [fillPosition_eq] at place
    split at place <;> omega

theorem heap_pos_idx : rm.heap (rm.pos rm.idx) = rm.idx := by
  obtain full | fresh := eq_or_lt_of_le settled.room
  · exact (settled.layout.filled rm.idx (full ▸ settled.inRing)).2
  · have slot := settled.next fresh
    have place := settled.layout.unfilled rm.idx slot.ge settled.inRing
    rw [place.1]
    exact place.2

theorem item_store {position : Int} (inUse : (rm.store v).InUse position) :
    (rm.store v).item position = if position = rm.pos rm.idx then v else rm.item position := by
  change Function.update rm.data rm.idx v (rm.heap position) = _
  split
  · rename_i same
    rw [same, heap_pos_idx settled, Function.update_self]
  · rename_i ne
    refine Function.update_of_ne ?_ _ _
    intro same
    obtain before | equal := (inUse_store settled).mp inUse
    · exact ne ((same ▸ (settled.layout.placed position before).2).symm)
    · exact ne equal

theorem layout_store : (rm.store v).Layout where
  filled := by
    intro slot lt
    change slot < min (rm.sz + 1) rm.capacity at lt
    rw [inUse_store settled]
    by_cases before : slot < rm.sz
    · have place := settled.layout.filled slot before
      exact ⟨.inl place.1, place.2⟩
    · have room := settled.room
      obtain rfl : slot = rm.idx := by
        rw [settled.next (by omega)]
        omega
      exact ⟨.inr rfl, heap_pos_idx settled⟩
  placed := by
    intro position inUse
    change rm.heap position < min (rm.sz + 1) rm.capacity ∧ rm.pos (rm.heap position) = position
    have room := settled.room
    obtain before | rfl := (inUse_store settled).mp inUse
    · have place := settled.layout.placed position before
      exact ⟨by omega, place.2⟩
    · rw [heap_pos_idx settled]
      refine ⟨?_, rfl⟩
      have inRing := settled.inRing
      have next := settled.next
      omega
  unfilled := by
    intro slot outside lt
    change min (rm.sz + 1) rm.capacity ≤ slot at outside
    change slot < rm.capacity at lt
    exact settled.layout.unfilled slot (by omega) lt

variable {index : Nat}

theorem inUse_of_le (lt : index ≤ (rm.store v).count side) :
    (rm.store v).InUse (side.position index) :=
  inUse_position (store_sz_pos settled) lt

variable (place : rm.pos rm.idx = side.position node)

include place

theorem view_store (lt : index ≤ (rm.store v).count side) :
    (rm.store v).view side index = if index = node then v else rm.view side index := by
  rw [view, item_store settled (inUse_of_le settled lt), place]
  simp
  rfl

theorem le_count_of_le_store (lt : index ≤ (rm.store v).count side) (ne : index ≠ node) :
    index ≤ rm.count side := by
  obtain before | same := (inUse_store settled).mp (inUse_of_le settled lt)
  · exact le_count_of_inUse before
  · rw [place, Side.position_inj] at same
    exact absurd same ne

theorem le_store_count : node ≤ (rm.store v).count side := by
  refine le_count_of_inUse ?_
  rw [← place]
  exact (inUse_store settled).mpr (.inr rfl)

theorem view_old : rm.view side node = rm.data rm.idx := by
  rw [view, ← place, item, heap_pos_idx settled]

theorem other_store (positive : 0 < node) : (rm.store v).SideOrdered side.other := by
  intro index indexPositive lt
  have unmoved : ∀ lower, lower ≤ (rm.store v).count side.other →
      (rm.store v).view side.other lower = rm.view side.other lower ∧
        lower ≤ rm.count side.other := by
    intro lower lowerInside
    have inUse := inUse_of_le settled lowerInside
    have apart : side.other.position lower ≠ rm.pos rm.idx := by
      rw [place]
      obtain rfl | lowerPositive := Nat.eq_zero_or_pos lower
      · rw [Side.position_zero, ← Side.position_zero, Ne, Side.position_inj]
        omega
      · exact side.position_other_ne node lowerPositive
    refine ⟨?_, ?_⟩
    · rw [view, item_store settled inUse, if_neg apart]
      rfl
    · obtain before | same := (inUse_store settled).mp inUse
      · exact le_count_of_inUse before
      · exact absurd same apart
  rw [(unmoved index lt).1, (unmoved _ (by omega)).1]
  exact settled.ordered _ index indexPositive (unmoved index lt).2

theorem edge_store (positive : 0 < index) (lt : index ≤ (rm.store v).count side)
    (notNode : index ≠ node) (notChild : index / 2 ≠ node) :
    side.Outward ((rm.store v).view side (index / 2)) ((rm.store v).view side index) := by
  rw [view_store settled place lt, if_neg notNode,
    view_store settled place (by omega), if_neg notChild]
  exact settled.ordered side index positive (le_count_of_le_store settled place lt notNode)

theorem child_store (positive : 0 < node)
    (lt : index ≤ (rm.store v).count side) (child : index / 2 = node) :
    side.Outward (rm.data rm.idx) ((rm.store v).view side index) ∧
      side.Outward ((rm.store v).view side (node / 2)) ((rm.store v).view side index) := by
  have notNode : index ≠ node := by omega
  have before := le_count_of_le_store settled place lt notNode
  have edge := settled.ordered side index (by omega) before
  have above := settled.ordered side node positive (by omega)
  rw [child, view_old settled place] at edge
  rw [view_old settled place] at above
  rw [view_store settled place lt, if_neg notNode,
    view_store settled place (show node / 2 ≤ (rm.store v).count side by omega),
    if_neg (show node / 2 ≠ node by omega)]
  exact ⟨edge, Side.outward_trans above edge⟩

theorem rising_store (positive : 0 < node)
    (inward : (∀ index, index ≤ (rm.store v).count side → index / 2 ≠ node) ∨
      side.Outward v (rm.data rm.idx)) : (rm.store v).Rising side node where
  layout := layout_store settled
  nonempty := store_sz_pos settled
  positive := positive
  inside := le_store_count settled place
  rises := by
    refine ⟨?_, ?_⟩
    · intro index indexPositive inside notNode
      by_cases child : index / 2 = node
      · obtain leaf | inward := inward
        · exact absurd child (leaf index inside)
        · rw [child, view_store settled place (le_store_count settled place), if_pos rfl]
          exact Side.outward_trans inward (child_store settled place positive inside child).1
      · exact edge_store settled place indexPositive inside notNode child
    · intro index _ inside child
      exact (child_store settled place positive inside child).2
  other := other_store settled place positive

theorem sinks_store (positive : 0 < node) (full : node ≤ rm.count side)
    (outward : side.Outward (rm.data rm.idx) v) : (rm.store v).SideSinks side node := by
  refine ⟨?_, ?_⟩
  · intro index indexPositive lt notChild
    by_cases same : index = node
    · subst same
      have above := settled.ordered side index positive full
      rw [view_old settled place] at above
      rw [view_store settled place lt, if_pos rfl,
        view_store settled place (by omega), if_neg (by omega)]
      exact Side.outward_trans above outward
    · exact edge_store settled place indexPositive lt same notChild
  · intro index _ lt child
    exact (child_store settled place positive lt child).2

theorem leaf_store (fresh : rm.sz < rm.capacity)
    (lt : index ≤ (rm.store v).count side) (positive : 0 < node) : index / 2 ≠ node := by
  intro child
  have before := le_count_of_le_store settled place lt (by omega)
  have ne : 0 < rm.sz := by
    by_contra empty
    have := settled.larger
    have := settled.smaller
    cases side <;> simp [count] at before <;> omega
  have inUse := inUse_position ne (show node ≤ rm.count side by omega)
  have taken := (settled.layout.placed _ inUse).1
  rw [← place, heap_pos_idx settled, settled.next fresh] at taken
  exact lt_irrefl _ taken

theorem le_count_of_full (full : rm.sz = rm.capacity) : node ≤ rm.count side := by
  refine le_count_of_inUse ?_
  rw [← place]
  exact (settled.layout.filled rm.idx (full ▸ settled.inRing)).1

theorem rise_store (positive : 0 < node)
    (inward : rm.sz < rm.capacity ∨ side.Outward v (rm.data rm.idx)) :
    (rm.store v).Rising side node :=
  rising_store settled place positive (inward.imp_left fun fresh _ lt =>
      leaf_store settled place fresh lt positive)

theorem sink_store_spec (positive : 0 < node) (full : rm.sz = rm.capacity)
    (outward : side.Outward (rm.data rm.idx) v) :
    SameItems (rm.store v) (sortDown side (rm.store v) node positive) ∧
      ∀ either, (sortDown side (rm.store v) node positive).SideOrdered either := by
  obtain ⟨sunk, ordered, median⟩ := sortDown_spec positive (layout_store settled)
    (store_sz_pos settled) (le_store_count settled place)
    (sinks_store settled place positive (le_count_of_full settled place full) outward)
  have other := @other_store _ _ _ _ _ v settled place positive
  refine ⟨sunk.toSameItems, (Side.forall_iff side).mpr ⟨ordered, ?_⟩⟩
  refine (sunk.belowRoot other.belowRoot).ordered ?_
  intro root
  have edge := other 1 one_pos (by rwa [← sunk.count])
  rw [view_zero] at edge
  rw [view_zero, median, sunk.others 1 one_pos]
  exact edge

end Store

theorem settle_store_spec (settled : rm.Settled) (place : rm.pos rm.idx = 0) :
    SameItems (rm.store v) (rm.store v).settleMedian ∧
      ∀ either, (rm.store v).settleMedian.SideOrdered either := by
  have unmoved : ∀ side index, 0 < index → index ≤ (rm.store v).count side →
      (rm.store v).view side index = rm.view side index ∧ index ≤ rm.count side := by
    intro side index positive lt
    have own : rm.pos rm.idx = side.position 0 := by rw [place, Side.position_zero]
    rw [view_store settled own lt, if_neg (by omega)]
    exact ⟨rfl, le_count_of_le_store settled own lt (by omega)⟩
  refine settleMedian_spec (layout_store settled) (store_sz_pos settled) ?_ ?_
  · intro side index later lt
    rw [(unmoved side index (by omega) lt).1,
      (unmoved side _ (by omega) (by omega)).1]
    exact settled.ordered side index (by omega) (unmoved side index (by omega) lt).2
  · intro low high
    have lowRoot := unmoved .max 1 one_pos low
    have highRoot := unmoved .min 1 one_pos high
    rw [lowRoot.1, highRoot.1]
    have below : rm.view .max 1 ≤ rm.view .max 0 := settled.ordered .max 1 one_pos lowRoot.2
    have above : rm.view .min 0 ≤ rm.view .min 1 := settled.ordered .min 1 one_pos highRoot.2
    exact le_trans below above

end RollingMedian

/-! ## The items a rolling median stands for -/

open List

namespace RollingMedian

variable {Item : Type*}

theorem store_eq {rm : RollingMedian Item} {v : Item} {minCt maxCt : Nat}
    (larger : minCt = (min (rm.sz + 1) rm.capacity - 1) / 2)
    (smaller : maxCt = min (rm.sz + 1) rm.capacity / 2) :
    ({ capacity := rm.capacity
       data := Function.update rm.data rm.idx v
       pos := rm.pos
       heap := rm.heap
       idx := (rm.idx + 1) % rm.capacity
       minCt := minCt
       maxCt := maxCt
       sz := min (rm.sz + 1) rm.capacity } : RollingMedian Item) = rm.store v := by
  subst larger smaller
  rfl

def slots (rm : RollingMedian Item) : List Item :=
  (range rm.sz).map rm.data

@[simp]
theorem length_slots (rm : RollingMedian Item) : rm.slots.length = rm.sz := by
  rw [slots, length_map, length_range]

theorem rotate_set {ring : List Item} {oldest : Nat} (lt : oldest < ring.length) (v : Item) :
    (ring.set oldest v).rotate ((oldest + 1) % ring.length) = (ring.rotate oldest).tail ++ [v] := by
  have length : (ring.set oldest v).length = ring.length := length_set
  rw [← length, rotate_mod, rotate_eq_drop_append_take (by rw [length]; omega),
    rotate_eq_drop_append_take lt.le, drop_set,
    if_pos (Nat.lt_succ_self oldest), take_set,
    take_succ_eq_append_getElem lt, drop_eq_getElem_cons lt,
    cons_append, tail_cons, append_assoc]
  have taken : (ring.take oldest).length = oldest := length_take_of_le lt.le
  rw [set_append_right _ _ taken.le, taken, Nat.sub_self, set_cons_zero]

variable [LinearOrder Item] {rm : RollingMedian Item}

theorem Settled.fresh_counts (settled : rm.Settled) (fresh : rm.sz < rm.capacity) :
    (0 < rm.pos rm.idx → rm.minCt < (rm.capacity - 1) / 2 ∧
        rm.minCt + 1 = (min (rm.sz + 1) rm.capacity - 1) / 2 ∧
        rm.maxCt = min (rm.sz + 1) rm.capacity / 2) ∧
      (rm.pos rm.idx < 0 → rm.maxCt < rm.capacity / 2 ∧
        rm.minCt = (min (rm.sz + 1) rm.capacity - 1) / 2 ∧
        rm.maxCt + 1 = min (rm.sz + 1) rm.capacity / 2) ∧
      (rm.pos rm.idx = 0 → rm.minCt = (min (rm.sz + 1) rm.capacity - 1) / 2 ∧
        rm.maxCt = min (rm.sz + 1) rm.capacity / 2) := by
  have larger := settled.larger
  have smaller := settled.smaller
  have next := settled.next fresh
  have place := (settled.layout.unfilled rm.idx next.ge settled.inRing).1
  rw [next, fillPosition_eq] at place
  rw [next, place]
  split <;> omega

theorem Settled.full_counts (settled : rm.Settled) (full : rm.sz = rm.capacity) :
    ¬rm.minCt < (rm.capacity - 1) / 2 ∧ ¬rm.maxCt < rm.capacity / 2 ∧
      rm.minCt = (min (rm.sz + 1) rm.capacity - 1) / 2 ∧
      rm.maxCt = min (rm.sz + 1) rm.capacity / 2 := by
  have larger := settled.larger
  have smaller := settled.smaller
  omega

theorem insert_spec (settled : rm.Settled) (v : Item) :
    SameItems (rm.store v) (rm.insert v) ∧ ∀ side, (rm.insert v).SideOrdered side := by
  unfold insert
  dsimp only
  split
  · rename_i pos
    have place : rm.pos rm.idx = Side.min.position (rm.pos rm.idx).toNat :=
      (Int.toNat_of_nonneg pos.le).symm
    have nodePositive : 0 < (rm.pos rm.idx).toNat := by omega
    have ne : 0 < (rm.store v).maxCt := by
      have lt := @le_store_count _ _ _ _ _ v settled place
      change (rm.pos rm.idx).toNat ≤ (min (rm.sz + 1) rm.capacity - 1) / 2 at lt
      change 0 < min (rm.sz + 1) rm.capacity / 2
      omega
    obtain full | fresh := eq_or_lt_of_le settled.room
    · obtain ⟨noRoom, -, larger, smaller⟩ := settled.full_counts full
      rw [if_neg noRoom, store_eq larger smaller]
      split
      · rename_i outward
        exact sink_store_spec settled place nodePositive full outward.le
      · rename_i inward
        have rising := rise_store settled place nodePositive (.inr (not_lt.mp inward))
        rw [riseInMin_eq rising ne]
        exact rise_spec rising
    · obtain ⟨hasRoom, larger, smaller⟩ := (settled.fresh_counts fresh).1 pos
      have rising := @rise_store _ _ _ _ _ v settled place nodePositive (.inl fresh)
      rw [if_pos hasRoom, store_eq larger smaller, riseInMin_eq rising ne]
      exact rise_spec rising
  · split
    · rename_i negative
      have place : rm.pos rm.idx = Side.max.position (-rm.pos rm.idx).toNat := by
        rw [Side.position, Int.toNat_of_nonneg (by omega), neg_neg]
      have nodePositive : 0 < (-rm.pos rm.idx).toNat := by omega
      obtain full | fresh := eq_or_lt_of_le settled.room
      · obtain ⟨-, noRoom, larger, smaller⟩ := settled.full_counts full
        rw [if_neg noRoom, store_eq larger smaller]
        split
        · rename_i outward
          exact sink_store_spec settled place nodePositive full outward.le
        · rename_i inward
          rw [riseInMax_eq]
          exact rise_spec (rise_store settled place nodePositive (.inr (not_lt.mp inward)))
      · obtain ⟨hasRoom, larger, smaller⟩ := (settled.fresh_counts fresh).2.1 negative
        rw [if_pos hasRoom, store_eq larger smaller, riseInMax_eq]
        exact rise_spec (rise_store settled place nodePositive (.inl fresh))
    · have place : rm.pos rm.idx = 0 := by omega
      obtain full | fresh := eq_or_lt_of_le settled.room
      · obtain ⟨-, -, larger, smaller⟩ := settled.full_counts full
        rw [store_eq larger smaller]
        exact settle_store_spec settled place
      · obtain ⟨larger, smaller⟩ := (settled.fresh_counts fresh).2.2 place
        rw [store_eq larger smaller]
        exact settle_store_spec settled place

theorem Settled.insert (settled : rm.Settled) (v : Item) : (rm.insert v).Settled := by
  obtain ⟨same, ordered⟩ := insert_spec settled v
  have capacity : (rm.insert v).capacity = rm.capacity := same.capacity
  have sz : (rm.insert v).sz = min (rm.sz + 1) rm.capacity := same.sz
  have idx : (rm.insert v).idx = (rm.idx + 1) % rm.capacity := same.idx
  have pos := settled.positive
  refine ⟨?_, ?_, ?_, ?_, ?_, ?_, same.layout, ordered⟩
  · rwa [capacity]
  · rw [capacity, sz]
    exact min_le_right _ _
  · rw [sz]
    exact congrFun same.count .min
  · rw [sz]
    exact congrFun same.count .max
  · rw [capacity, idx]
    exact Nat.mod_lt _ pos
  · intro fresh
    rw [capacity] at fresh
    rw [idx, settled.next (by omega), Nat.mod_eq_of_lt (by omega)]
    omega

structure Holds (rm : RollingMedian Item) (items : List Item) : Prop extends Settled rm where
  items_eq : items = rm.slots.rotate rm.idx

theorem holds_clear (rm : RollingMedian Item) (pos : 0 < rm.capacity) : rm.clear.Holds [] :=
  ⟨settled_clear rm pos, rfl⟩

variable {items : List Item}

theorem Holds.length (holds : rm.Holds items) : items.length = rm.sz := by
  rw [holds.items_eq, length_rotate, length_slots]

theorem slots_insert (settled : rm.Settled) (v : Item) : (rm.insert v).slots =
      if rm.sz < rm.capacity then rm.slots ++ [v] else rm.slots.set rm.idx v := by
  obtain ⟨same, -⟩ := insert_spec settled v
  have sz : (rm.insert v).sz = min (rm.sz + 1) rm.capacity := same.sz
  have data : (rm.insert v).data = Function.update rm.data rm.idx v := same.data
  have room := settled.room
  rw [slots, sz, data]
  split
  · rename_i fresh
    rw [min_eq_left (by omega), range_succ, map_append, settled.next fresh]
    congr 1
    · refine map_congr_left ?_
      intro slot lt
      rw [mem_range] at lt
      exact Function.update_of_ne (by omega) _ _
    · simp
  · rw [show rm.capacity = rm.sz by omega]
    refine ext_getElem (by simp) ?_
    intro slot lt _
    simp only [slots, getElem_map, getElem_range, getElem_set, Function.update_apply, eq_comm]

theorem Holds.insert (holds : rm.Holds items) (v : Item) :
    (rm.insert v).Holds ((items ++ [v]).rtake rm.capacity) := by
  refine ⟨holds.toSettled.insert v, ?_⟩
  obtain ⟨same, -⟩ := insert_spec holds.toSettled v
  have idx : (rm.insert v).idx = (rm.idx + 1) % rm.capacity := same.idx
  have length := holds.length
  have room := holds.room
  rw [slots_insert holds.toSettled, idx, rtake, length_append, length, length_singleton]
  split
  · rename_i fresh
    have full : (rm.slots ++ [v]).rotate ((rm.idx + 1) % rm.capacity) = rm.slots ++ [v] := by
      obtain last | more := eq_or_lt_of_le (show rm.sz + 1 ≤ rm.capacity from fresh)
      · rw [holds.next fresh, ← last, Nat.mod_self, rotate_zero]
      · have whole : rm.sz + 1 = (rm.slots ++ [v]).length := by simp
        rw [holds.next fresh, Nat.mod_eq_of_lt more, whole, rotate_length]
    have unrotated : items = rm.slots := by
      rw [holds.items_eq, holds.next fresh, ← length_slots, rotate_length]
    rw [full, Nat.sub_eq_zero_of_le (by omega), drop_zero, unrotated]
  · rename_i full
    have lt : rm.idx < rm.slots.length := by
      have := holds.inRing
      rw [length_slots]
      omega
    have capacity : rm.capacity = rm.slots.length := by
      rw [length_slots]
      omega
    rw [capacity, rotate_set lt, ← holds.items_eq, length_slots,
      show rm.sz + 1 - rm.sz = 1 by omega, drop_one,
      tail_append_of_ne_nil]
    rintro rfl
    simp at length
    omega

theorem Settled.capacity_insert (settled : rm.Settled) (v : Item) :
    (rm.insert v).capacity = rm.capacity :=
  (insert_spec settled v).1.capacity

theorem Holds.foldl_insert {more : List Item} (holds : rm.Holds items)
    (fits : items.length + more.length ≤ rm.capacity) :
    (more.foldl RollingMedian.insert rm).Holds (items ++ more) ∧
      (more.foldl RollingMedian.insert rm).capacity = rm.capacity := by
  induction more generalizing rm items with
  | nil => exact ⟨by simpa using holds, rfl⟩
  | cons v rest ih =>
    have capacity := holds.toSettled.capacity_insert v
    have inserted := holds.insert v
    rw [rtake, length_append, Nat.sub_eq_zero_of_le (by
      rw [length_cons] at fits
      rw [length_singleton]
      omega), drop_zero] at inserted
    have filled := ih inserted (by
      rw [length_append, length_singleton]
      rw [length_cons] at fits
      omega)
    rw [capacity, append_assoc] at filled
    exact filled

def arranged (rm : RollingMedian Item) : List Item :=
  (range rm.sz).map fun index : Nat => rm.item (index - rm.maxCt)

theorem Settled.inUse_sub (settled : rm.Settled) {index : Nat} (lt : index < rm.sz) :
    rm.InUse (index - rm.maxCt) := by
  have larger := settled.larger
  have smaller := settled.smaller
  exact ⟨by omega, by omega, by omega⟩

theorem Holds.perm_arranged (holds : rm.Holds items) : items.Perm rm.arranged := by
  have slots : (range rm.sz).Perm
      ((range rm.sz).map fun index : Nat => rm.heap (index - rm.maxCt)) := by
    refine (perm_ext_iff_of_nodup nodup_range ?_).mpr ?_
    · refine List.Nodup.map_on ?_ nodup_range
      intro first firstInside second secondInside same
      rw [mem_range] at firstInside secondInside
      have firstPlace := holds.layout.placed _ (holds.inUse_sub firstInside)
      have secondPlace := holds.layout.placed _ (holds.inUse_sub secondInside)
      rw [same] at firstPlace
      omega
    · intro slot
      rw [mem_range, mem_map]
      constructor
      · intro lt
        have place := holds.layout.filled slot lt
        have larger := holds.larger
        have smaller := holds.smaller
        obtain ⟨-, low, high⟩ := place.1
        refine ⟨(rm.pos slot + rm.maxCt).toNat, ?_, ?_⟩
        · rw [mem_range]
          omega
        · rw [Int.toNat_of_nonneg (by omega), add_sub_cancel_right]
          exact place.2
      · rintro ⟨index, lt, rfl⟩
        rw [mem_range] at lt
        exact (holds.layout.placed _ (holds.inUse_sub lt)).1
  rw [holds.items_eq]
  refine (rotate_perm _ _).trans ?_
  have mapped := slots.map rm.data
  rw [map_map] at mapped
  exact mapped

section Order

variable (settled : rm.Settled) {position : Int}

include settled

theorem Settled.item_le_median (inUse : rm.InUse position) (low : position ≤ 0) :
    rm.item position ≤ rm.item 0 := by
  obtain ⟨node, rfl⟩ := Int.exists_eq_neg_ofNat low
  have outward := (settled.ordered .max).top_le (Side.outward_refl .max)
    Side.outward_trans (le_count_of_inUse inUse)
  exact outward

theorem Settled.median_le_item (inUse : rm.InUse position) (high : 0 ≤ position) :
    rm.item 0 ≤ rm.item position := by
  obtain ⟨node, rfl⟩ := Int.eq_ofNat_of_zero_le high
  have outward := (settled.ordered .min).top_le (Side.outward_refl .min)
    Side.outward_trans (le_count_of_inUse inUse)
  exact outward

theorem Settled.item_le_root (inUse : rm.InUse position) (low : position ≤ -1) :
    rm.item position ≤ rm.item (-1) := by
  obtain ⟨node, rfl⟩ := Int.exists_eq_neg_ofNat (by omega : position ≤ 0)
  exact (settled.ordered .max).root_le (Side.outward_refl .max)
    Side.outward_trans (by omega) (le_count_of_inUse inUse)

end Order

section Numbers

variable {rm : RollingMedian Nat} {items : List Nat}

theorem Holds.sorted_getD (holds : rm.Holds items) {index : Nat} (lt : index < rm.sz)
    (below : ∀ lower, lower < index → rm.item (lower - rm.maxCt) ≤ rm.item (index - rm.maxCt))
    (above : ∀ upper, index < upper → upper < rm.sz →
      rm.item (index - rm.maxCt) ≤ rm.item (upper - rm.maxCt)) :
    (sortAscending items).getD index 0 = rm.item (index - rm.maxCt) := by
  have length : rm.arranged.length = rm.sz := by rw [arranged, length_map, length_range]
  have entry : ∀ other (otherInside : other < rm.arranged.length),
      rm.arranged[other] = rm.item (other - rm.maxCt) := by
    intro other otherInside
    simp [arranged]
  have split := take_append_drop index rm.arranged
  rw [drop_eq_getElem_cons (length ▸ lt), entry] at split
  rw [sortAscending_of_perm holds.perm_arranged, ← split, sortAscending_append_cons]
  · have front : (sortAscending (rm.arranged.take index)).length = index := by
      rw [sortAscending, length_insertionSort, length_take]
      omega
    rw [getD_append_right _ _ _ _ front.le, front, Nat.sub_self, getD_cons_zero]
  · intro low mem
    obtain ⟨lower, lowerInside, rfl⟩ := mem_take_iff_getElem.mp mem
    rw [entry]
    exact below lower (by omega)
  · intro high mem
    obtain ⟨offset, offsetInside, rfl⟩ := mem_drop_iff_getElem.mp mem
    rw [entry]
    exact above _ (by omega) (by omega)

theorem Holds.median_eq (holds : rm.Holds items) (ne : items ≠ []) :
    rm.median getMid = LodeChain.median items := by
  have pos : 0 < rm.sz := by
    rw [← holds.length]
    exact length_pos_iff.mpr ne
  have larger := holds.larger
  have smaller := holds.smaller
  have middle : (sortAscending items).getD rm.maxCt 0 = rm.item 0 := by
    have found := holds.sorted_getD (show rm.maxCt < rm.sz by omega)
    rw [sub_self] at found
    refine found ?_ ?_
    · intro lower before
      exact holds.item_le_median (holds.inUse_sub (by omega)) (by omega)
    · intro upper after lt
      exact holds.median_le_item (holds.inUse_sub lt) (by omega)
  rw [median_eq_sorted, holds.length, RollingMedian.median]
  split
  · rename_i even
    have root : (sortAscending items).getD (rm.maxCt - 1) 0 = rm.item (-1) := by
      have found := holds.sorted_getD (show rm.maxCt - 1 < rm.sz by omega)
      rw [show ((rm.maxCt - 1 : Nat) : Int) - rm.maxCt = -1 by omega] at found
      refine found ?_ ?_
      · intro lower before
        exact holds.item_le_root (holds.inUse_sub (by omega)) (by omega)
      · intro upper after lt
        have low : rm.item (-1) ≤ rm.item 0 :=
          holds.item_le_median ⟨pos, by omega, by omega⟩ (by omega)
        exact low.trans (holds.median_le_item (holds.inUse_sub lt) (by omega))
    rw [if_neg (by omega), ← smaller, middle, root, getMid_eq, Nat.add_comm]
  · rename_i odd
    rw [if_pos (by omega), ← smaller, middle]

end Numbers

end RollingMedian

/-! ## Runs of a rolling median -/

open WrappedArithmetic

namespace RollingMedian

variable {Item : Type*}

def storageSize (itemSize capacity : Nat) : Int :=
  Int.bmod (mulMod 64 capacity (itemSize + 4 * 2)) (2 ^ 32)

/-- No object for a negative size, which `malloc` cannot give, or storage too small for the arrays.
-/
def construct (itemSize capacity : Nat) (memory : Nat → Item) : Option (RollingMedian Item) :=
  let size := storageSize itemSize capacity
  if 0 ≤ size ∧ (capacity * (itemSize + 4 * 2) : Nat) ≤ size then some (new capacity memory)
  else none

theorem construct_eq {itemSize capacity : Nat} (memory : Nat → Item)
    (small : capacity * (itemSize + 4 * 2) < 2 ^ 31) :
    construct itemSize capacity memory = some (new capacity memory) := by
  have word : mulMod 64 capacity (itemSize + 4 * 2) = capacity * (itemSize + 4 * 2) :=
    mulMod_of_lt (small.trans (by decide))
  have size : storageSize itemSize capacity = (capacity * (itemSize + 4 * 2) : Nat) := by
    unfold storageSize
    simp only [word]
    generalize capacity * (itemSize + 4 * 2) = bytes at small ⊢
    exact Int.bmod_eq_of_le (by omega) (by omega)
  rw [construct, size, if_pos ⟨by omega, le_rfl⟩]

theorem construct_eq_none {itemSize capacity : Nat} (memory : Nat → Item)
    (large : 2 ^ 31 ≤ capacity * (itemSize + 4 * 2)) :
    construct itemSize capacity memory = none := by
  have bound : storageSize itemSize capacity < 2 ^ 31 := Int.bmod_lt (by decide)
  rw [construct, if_neg]
  omega

section Runs

variable [LinearOrder Item] {rm : RollingMedian Item}

theorem holds_foldl_insert (pos : 0 < rm.capacity) (inserted : List Item) :
    (inserted.foldl insert rm.clear).Holds (inserted.rtake rm.capacity) ∧
      (inserted.foldl insert rm.clear).capacity = rm.capacity := by
  induction inserted using reverseRecOn with
  | nil => exact ⟨by simpa using rm.holds_clear pos, rfl⟩
  | append_singleton inserted v ih =>
    obtain ⟨holds, capacity⟩ := ih
    have next := holds.insert v
    rw [capacity, ListFacts.rtake_append_singleton] at next
    rw [foldl_concat]
    exact ⟨next, (holds.toSettled.capacity_insert v).trans capacity⟩

end Runs

/-- For every size of the window the median of the last 64-bit words is given after each insert,
exactly if the storage takes less than `2 ^ 31` bytes. -/
theorem construct_median_iff {capacity : Nat} (positive : 1 ≤ capacity) (memory : Nat → Nat) :
    (∃ rm, construct 8 capacity memory = some rm ∧ ∀ inserted : List Nat, inserted ≠ [] →
        (inserted.foldl insert rm).median getMid = LodeChain.median (inserted.rtake capacity)) ↔
      capacity < 2 ^ 27 := by
  constructor
  · rintro ⟨rm, made, -⟩
    by_contra large
    rw [construct_eq_none memory (by omega)] at made
    cases made
  · intro small
    refine ⟨_, construct_eq memory (by omega), ?_⟩
    intro inserted nonempty
    obtain ⟨holds, -⟩ := @holds_foldl_insert _ _ (new capacity memory) positive inserted
    refine holds.median_eq ?_
    rw [← length_pos_iff, rtake, length_drop]
    have := length_pos_iff.mpr nonempty
    change 0 < inserted.length - (inserted.length - capacity)
    omega

theorem twoOfThree_median : ∃ rm, construct 8 2 (fun _ => 0) = some rm ∧
      ([7, 1, 4].foldl insert rm).median getMid = LodeChain.median [1, 4] := by
  obtain ⟨rm, made, median_eq⟩ :=
    (construct_median_iff (by decide : 1 ≤ 2) (fun _ => 0)).mpr (by decide)
  exact ⟨rm, made, median_eq [7, 1, 4] (by simp)⟩

/-- A window of `2 ^ 27` words needs `2 ^ 31` bytes, and there is no object. -/
theorem construct_twoGibibytes : storageSize 8 134217728 = -2147483648 ∧
      (construct 8 134217728 fun _ => 0 : Option (RollingMedian Nat)) = none := by
  refine ⟨by decide, construct_eq_none _ (by decide)⟩

end RollingMedian

end LodeChain

import Mathlib.Combinatorics.Enumerative.DoubleCounting
import Mathlib.Data.List.AList
import Mathlib.Data.Prod.Lex

/-!
# Ordered tables

The rows of a table are kept in the strict order of their keys.
-/

@[ext]
structure OrderedTable (κ α : Type) [LinearOrder κ] where
  rows : List (κ × α)
  sorted : rows.Pairwise fun first second => first.1 < second.1

namespace OrderedTable

open List Option

variable {κ α : Type} [LinearOrder κ]

def empty : OrderedTable κ α :=
  ⟨[], List.Pairwise.nil⟩

def size (table : OrderedTable κ α) : Nat :=
  table.rows.length

def find? (table : OrderedTable κ α) (key : κ) : Option α :=
  (table.rows.find? fun row => row.1 == key).map Prod.snd

def lastKey? (table : OrderedTable κ α) : Option κ :=
  table.rows.getLast?.map Prod.fst

def insertRow (row : κ × α) : List (κ × α) → List (κ × α)
  | [] => [row]
  | head :: rest =>
    if row.1 < head.1 then row :: head :: rest
    else head :: insertRow row rest

variable {row : κ × α}

theorem mem_insertRow {other : κ × α} {rows : List (κ × α)} :
    other ∈ insertRow row rows ↔ other = row ∨ other ∈ rows := by
  induction rows with
  | nil => simp [insertRow]
  | cons head rest ih =>
    rw [insertRow]
    split_ifs
    · simp
    · simp [ih]
      exact or_left_comm

theorem length_insertRow (row : κ × α) (rows : List (κ × α)) :
    (insertRow row rows).length = rows.length + 1 := by
  induction rows with
  | nil => rfl
  | cons head rest ih =>
    rw [insertRow]
    split_ifs
    · rfl
    · rw [length_cons, ih, length_cons]

theorem insertRow_sorted {rows : List (κ × α)}
    (sorted : rows.Pairwise fun first second => first.1 < second.1)
    (absent : ∀ other ∈ rows, other.1 ≠ row.1) :
    (insertRow row rows).Pairwise fun first second => first.1 < second.1 := by
  induction rows with
  | nil => exact pairwise_singleton _ _
  | cons head rest ih =>
    rw [forall_mem_cons] at absent
    rw [pairwise_cons] at sorted
    rw [insertRow]
    split_ifs with before
    · apply List.Pairwise.cons _ (pairwise_cons.mpr sorted)
      intro other mem
      rcases mem_cons.mp mem with rfl | later
      · exact before
      · exact before.trans (sorted.1 other later)
    · apply List.Pairwise.cons _ (ih sorted.2 absent.2)
      intro other mem
      rcases mem_insertRow.mp mem with rfl | later
      · exact lt_of_le_of_ne (not_lt.mp before) absent.1
      · exact sorted.1 other later

theorem insertRow_of_forall_lt {rows : List (κ × α)} (greatest : ∀ other ∈ rows, other.1 < row.1) :
    insertRow row rows = rows ++ [row] := by
  induction rows with
  | nil => rfl
  | cons head rest ih =>
    rw [forall_mem_cons] at greatest
    rw [insertRow, if_neg greatest.1.not_gt, ih greatest.2, cons_append]

theorem filter_insertRow (keep : κ → Bool) (row : κ × α) {rows : List (κ × α)}
    (sorted : rows.Pairwise fun first second => first.1 < second.1) :
    (insertRow row rows).filter (fun other => keep other.1) = if keep row.1 then
        insertRow row (rows.filter fun other => keep other.1)
      else
        rows.filter fun other => keep other.1 := by
  induction rows with
  | nil => cases kept : keep row.1 <;> simp [insertRow, kept]
  | cons head rest ih =>
    rw [pairwise_cons] at sorted
    rw [insertRow]
    split_ifs with before kept kept
    · have greater : ∀ other ∈ (head :: rest).filter (fun other =>
          keep other.1), row.1 < other.1 := by
        intro other mem
        rcases mem_cons.mp (mem_of_mem_filter mem) with
          rfl | later
        · exact before
        · exact before.trans (sorted.1 other later)
      rw [filter_cons, if_pos kept]
      cases remaining : (head :: rest).filter (fun other => keep other.1) with
      | nil => rfl
      | cons first others =>
        rw [remaining] at greater
        rw [insertRow, if_pos (greater first mem_cons_self)]
    · rw [filter_cons, if_neg kept]
    · rw [filter_cons, ih sorted.2, filter_cons]
      split_ifs with headKept
      · rw [insertRow, if_neg before]
      · rfl
    · rw [filter_cons, ih sorted.2, if_neg kept, filter_cons]

theorem find?_eq_some_iff (table : OrderedTable κ α) {key : κ} {value : α} :
    table.find? key = some value ↔ (key, value) ∈ table.rows := by
  obtain ⟨rows, sorted⟩ := table
  change (rows.find? fun row => row.1 == key).map Prod.snd = some value ↔ (key, value) ∈ rows
  induction rows with
  | nil => simp
  | cons head rest ih =>
    rw [pairwise_cons] at sorted
    rw [find?_cons, mem_cons]
    cases same : head.1 == key with
    | true =>
      rw [beq_iff_eq] at same
      subst same
      simp
      constructor
      · rintro rfl
        exact Or.inl rfl
      · rintro (eq | later)
        · rw [← eq]
        · exact absurd (sorted.1 _ later) (lt_irrefl _)
    | false =>
      rw [beq_eq_false_iff_ne] at same
      rw [ih sorted.2]
      constructor
      · exact Or.inr
      · rintro (rfl | later)
        · exact absurd rfl same
        · exact later

theorem find?_eq_none_iff (table : OrderedTable κ α) {key : κ} :
    table.find? key = none ↔ ∀ row ∈ table.rows, row.1 ≠ key := by
  simp [find?]

theorem ext_find? {left right : OrderedTable κ α} (same : ∀ key, left.find? key = right.find? key) :
    left = right := by
  have mem : ∀ row, row ∈ left.rows ↔ row ∈ right.rows := by
    rintro ⟨key, value⟩
    rw [← find?_eq_some_iff, ← find?_eq_some_iff, same]
  ext1
  exact left.sorted.eq_of_mem_iff right.sorted mem

@[simp]
theorem find?_empty (key : κ) : (empty : OrderedTable κ α).find? key = none :=
  rfl

def insertNew (table : OrderedTable κ α) (key : κ) (value : α) : Option (OrderedTable κ α) :=
  if absent : ∀ row ∈ table.rows, row.1 ≠ key then
    some ⟨insertRow (key, value) table.rows, insertRow_sorted table.sorted absent⟩
  else none

def append (table : OrderedTable κ α) (key : κ) (value : α) : Option (OrderedTable κ α) :=
  if ∀ row ∈ table.rows, row.1 < key then table.insertNew key value else none

def erase (table : OrderedTable κ α) (key : κ) : Option (OrderedTable κ α) :=
  if (table.find? key).isSome then
    some ⟨table.rows.filter fun row => row.1 != key, table.sorted.filter _⟩
  else none

def discard (table : OrderedTable κ α) (key : κ) : OrderedTable κ α :=
  (table.erase key).getD table

variable {table after : OrderedTable κ α} {key : κ} {value : α}

theorem insertNew_rows (inserted : table.insertNew key value = some after) :
    after.rows = insertRow (key, value) table.rows := by
  unfold insertNew at inserted
  split_ifs at inserted
  rw [← Option.some.inj inserted]

theorem insertNew_absent (inserted : table.insertNew key value = some after) :
    table.find? key = none := by
  unfold insertNew at inserted
  split_ifs at inserted with absent
  exact table.find?_eq_none_iff.mpr absent

theorem insertNew_of_absent (absent : table.find? key = none) :
    ∃ after, table.insertNew key value = some after := by
  rw [insertNew, dif_pos (table.find?_eq_none_iff.mp absent)]
  exact ⟨_, rfl⟩

theorem insertNew_of_found {present : α} (found : table.find? key = some present) :
    table.insertNew key value = none := by
  rw [eq_none_iff_forall_ne_some]
  intro after inserted
  rw [insertNew_absent inserted] at found
  cases found

theorem insertNew_size (inserted : table.insertNew key value = some after) :
    after.size = table.size + 1 := by
  rw [size, insertNew_rows inserted, length_insertRow, size]

theorem find?_insertNew (inserted : table.insertNew key value = some after) (other : κ) :
    after.find? other = if other = key then some value else table.find? other := by
  have absent := insertNew_absent inserted
  ext found
  rw [find?_eq_some_iff, insertNew_rows inserted, mem_insertRow]
  split_ifs with same
  · subst same
    rw [Prod.mk.injEq, ← find?_eq_some_iff, absent]
    simp [eq_comm]
  · rw [find?_eq_some_iff]
    simp [same]

theorem append_insertNew (appended : table.append key value = some after) :
    table.insertNew key value = some after := by
  unfold append at appended
  split_ifs at appended
  exact appended

theorem append_rows (appended : table.append key value = some after) :
    after.rows = table.rows ++ [(key, value)] := by
  rw [insertNew_rows (append_insertNew appended)]
  unfold append at appended
  split_ifs at appended with greatest
  exact insertRow_of_forall_lt greatest

theorem erase_isSome (found : table.find? key = some value) :
    ∃ after, table.erase key = some after := by
  rw [erase, found]
  exact ⟨_, rfl⟩

theorem erase_rows (erased : table.erase key = some after) :
    after.rows = table.rows.filter fun row => row.1 != key := by
  unfold erase at erased
  split_ifs at erased
  rw [← Option.some.inj erased]

theorem find?_erase (erased : table.erase key = some after) (other : κ) :
    after.find? other = if other = key then none else table.find? other := by
  ext found
  rw [find?_eq_some_iff, erase_rows erased]
  split_ifs with same
  · simp [same]
  · rw [find?_eq_some_iff]
    simp [same]

theorem erase_insertNew (inserted : table.insertNew key value = some after) :
    after.erase key = some table := by
  have found : after.find? key = some value := by rw [find?_insertNew inserted, if_pos rfl]
  obtain ⟨restored, erased⟩ := erase_isSome found
  rw [erased, Option.some.injEq]
  apply ext_find?
  intro other
  rw [find?_erase erased, find?_insertNew inserted]
  split_ifs with same
  · rw [same, insertNew_absent inserted]
  · rfl

theorem insertNew_erase (found : table.find? key = some value)
    (erased : table.erase key = some after) : after.insertNew key value = some table := by
  have absent : after.find? key = none := by rw [find?_erase erased, if_pos rfl]
  obtain ⟨restored, inserted⟩ := insertNew_of_absent absent
  rw [inserted, Option.some.injEq]
  apply ext_find?
  intro other
  rw [find?_insertNew inserted, find?_erase erased]
  split_ifs with same
  · rw [same, found]
  · rfl

theorem find?_discard (other : κ) :
    (table.discard key).find? other = if other = key then none else table.find? other := by
  unfold discard
  cases erased : table.erase key with
  | some after => exact find?_erase erased other
  | none =>
    unfold erase at erased
    split_ifs at erased with found
    split_ifs with same
    · rw [same]
      simpa using found
    · rfl

theorem discard_of_absent (absent : table.find? key = none) : table.discard key = table := by
  rw [discard, erase, absent]
  rfl

theorem discard_insertNew (inserted : table.insertNew key value = some after) :
    after.discard key = table := by
  rw [discard, erase_insertNew inserted, getD_some]

theorem insertRow_perm (row : κ × α) (rows : List (κ × α)) :
    (insertRow row rows).Perm (row :: rows) := by
  induction rows with
  | nil => exact List.Perm.refl _
  | cons head rest ih =>
    rw [insertRow]
    split_ifs
    · exact List.Perm.refl _
    · exact (ih.cons head).trans (List.Perm.swap row head rest)

def put (table : OrderedTable κ α) (key : κ) (value : α) : OrderedTable κ α where
  rows := insertRow (key, value) (table.rows.filter fun row => row.1 != key)
  sorted := insertRow_sorted (table.sorted.filter _) (by simp)

theorem put_perm (table : OrderedTable κ α) (key : κ) (value : α) :
    (table.put key value).rows.Perm ((key, value) :: table.rows.filter fun row => row.1 != key) :=
  insertRow_perm _ _

theorem find?_put (table : OrderedTable κ α) (key other : κ) (value : α) :
    (table.put key value).find? other = if other = key then some value else table.find? other := by
  ext found
  rw [find?_eq_some_iff, (put_perm table key value).mem_iff]
  split_ifs with same
  · subst same
    simp [eq_comm]
  · rw [find?_eq_some_iff]
    simp [same]

theorem perm_of_find? (found : table.find? key = some value) :
    table.rows.Perm ((key, value) :: table.rows.filter fun row => row.1 != key) := by
  have same : table.put key value = table := by
    apply ext_find?
    intro other
    rw [find?_put]
    split_ifs with isKey
    · rw [isKey, found]
    · rfl
  have := table.put_perm key value
  rwa [same] at this

theorem filter_of_absent (absent : table.find? key = none) :
    (table.rows.filter fun row => row.1 != key) = table.rows := by
  rw [filter_eq_self]
  intro row mem
  simpa using table.find?_eq_none_iff.mp absent row mem

theorem discard_rows (table : OrderedTable κ α) (key : κ) :
    (table.discard key).rows = table.rows.filter fun row => row.1 != key := by
  unfold discard
  cases erased : table.erase key with
  | none =>
    rw [erase] at erased
    split_ifs at erased with found
    rw [getD_none, filter_of_absent (by simpa using found)]
  | some after => exact erase_rows erased

end OrderedTable

/-! ## Association lists -/

namespace AList

variable {α β : Type*} [DecidableEq α] {table : AList fun _ : α => β} {key id : α} {value found : β}

theorem lookup_insert_eq_some_iff : (table.insert key value).lookup id = some found ↔
      (id = key ∧ value = found) ∨ (id ≠ key ∧ table.lookup id = some found) := by
  by_cases same : id = key
  · subst same
    simp
  · simp [same]

theorem lookup_erase_eq_some_iff :
    (table.erase key).lookup id = some found ↔ id ≠ key ∧ table.lookup id = some found := by
  by_cases same : id = key
  · subst same
    simp
  · simp [same]

end AList

namespace AssociationTotals

variable {α β : Type*} [DecidableEq α]

def total (quantity : β → Nat) (table : AList fun _ : α => β) : Nat :=
  (table.entries.map fun entry => quantity entry.2).sum

variable {quantity : β → Nat} {table : AList fun _ : α => β} {key : α} {value : β}

private theorem sum_kerase {entries : List (Sigma fun _ : α => β)}
    (distinct : entries.NodupKeys) (mem : ⟨key, value⟩ ∈ entries) :
    ((entries.kerase key).map fun entry => quantity entry.2).sum + quantity value =
      (entries.map fun entry => quantity entry.2).sum := by
  induction entries with
  | nil => simp at mem
  | cons first rest ih =>
    obtain ⟨fresh, restDistinct⟩ := List.nodupKeys_cons.mp distinct
    by_cases same : key = first.1
    · rw [List.kerase_cons_eq same]
      rcases List.mem_cons.mp mem with eq | later
      · rw [List.map_cons, List.sum_cons, ← eq, Nat.add_comm]
      · exact absurd (same ▸ List.mem_keys_of_mem later) fresh
    · rw [List.kerase_cons_ne same]
      rcases List.mem_cons.mp mem with eq | later
      · exact absurd (congrArg Sigma.fst eq) same
      · rw [List.map_cons, List.sum_cons, List.map_cons, List.sum_cons,
          ← ih restDistinct later, Nat.add_assoc]

theorem total_erase (found : table.lookup key = some value) :
    total quantity (table.erase key) + quantity value = total quantity table :=
  sum_kerase table.nodupKeys (AList.mem_lookup_iff.mp found)

theorem total_insert (inserted : β) : total quantity (table.insert key inserted) =
      total quantity (table.erase key) + quantity inserted := by
  unfold total
  rw [AList.entries_insert, add_comm]
  rfl

theorem total_insert_of_lookup_none (absent : table.lookup key = none) :
    total quantity (table.insert key value) = total quantity table + quantity value := by
  have missing : key ∉ table := AList.lookup_eq_none.mp absent
  rw [total_insert]
  congr 2
  exact AList.ext (List.kerase_of_notMem_keys missing)

theorem total_insert_of_eq {original : β} (found : table.lookup key = some original)
    (same : quantity value = quantity original) :
    total quantity (table.insert key value) = total quantity table := by
  rw [total_insert, same, total_erase found]

theorem total_le_sum {keys : List α} {bound : α → Nat}
    (listed : ∀ key value, table.lookup key = some value →
      key ∈ keys ∧ quantity value ≤ bound key) : total quantity table ≤ (keys.map bound).sum := by
  have subperm : table.keys.Subperm keys := by
    refine List.subperm_of_subset table.keys_nodup fun key mem => ?_
    obtain ⟨value, found⟩ := Option.isSome_iff_exists.mp (AList.lookup_isSome.mpr mem)
    exact (listed key value found).1
  obtain ⟨picked, perm, sublist⟩ := subperm
  calc (table.entries.map fun entry => quantity entry.2).sum
      ≤ (table.entries.map fun entry => bound entry.1).sum :=
        List.sum_le_sum fun entry mem => (listed _ _ (AList.mem_lookup_iff.mpr mem)).2
    _ = (table.keys.map bound).sum := by rw [AList.keys, List.keys, List.map_map]; rfl
    _ = (picked.map bound).sum := (perm.map bound).sum_eq.symm
    _ ≤ (keys.map bound).sum := (sublist.map bound).sum_le_sum fun _ _ => Nat.zero_le _

end AssociationTotals

/-! ## Tables of sets -/

abbrev KeyedSets (κ α : Type) [LinearOrder κ] :=
  OrderedTable κ (Finset α)

namespace KeyedSets

open List OrderedTable

variable {κ α : Type}

def rowWithout [DecidableEq α] (value : α) (row : κ × Finset α) : Option (κ × Finset α) :=
  if row.2.erase value = ∅ then none else some (row.1, row.2.erase value)

theorem rowWithout_eq_some_iff [DecidableEq α] {value : α} {key : κ}
    {set : Finset α} {row : κ × Finset α} : rowWithout value row = some (key, set) ↔
      row.1 = key ∧ row.2.erase value = set ∧ set.Nonempty := by
  unfold rowWithout
  split_ifs with emptied
  · refine iff_of_false (by simp) ?_
    rintro ⟨-, rfl, ne⟩
    rw [emptied] at ne
    exact Finset.not_nonempty_empty ne
  · rw [Option.some.injEq, Prod.mk.injEq]
    constructor
    · rintro ⟨same, rfl⟩
      exact ⟨same, rfl, Finset.nonempty_iff_ne_empty.mpr emptied⟩
    · exact fun kept => ⟨kept.1, kept.2.1⟩

section Values

variable [LinearOrder α]

theorem insertionSort_eq_of_perm {left right : List α} (permuted : left.Perm right) :
    left.insertionSort (· ≤ ·) = right.insertionSort (· ≤ ·) := by
  have sorted := (perm_insertionSort (· ≤ ·) left).trans
    (permuted.trans (perm_insertionSort (· ≤ ·) right).symm)
  exact sorted.eq_of_pairwise' (pairwise_insertionSort _ _) (pairwise_insertionSort _ _)

def values (set : Finset α) : List α :=
  Quotient.liftOn set.val (fun list => list.insertionSort (· ≤ ·))
    fun _ _ permuted => insertionSort_eq_of_perm permuted

theorem mem_values {set : Finset α} {value : α} : value ∈ values set ↔ value ∈ set := by
  obtain ⟨⟨list⟩, distinct⟩ := set
  exact (perm_insertionSort _ list).mem_iff

end Values

variable [LinearOrder κ]

def members (sets : KeyedSets κ α) (key : κ) : Finset α :=
  (sets.find? key).getD ∅

structure Records (sets : KeyedSets κ α) (related : κ → α → Prop) : Prop where
  mem_iff : ∀ key value, value ∈ members sets key ↔ related key value
  nonempty : ∀ key set, sets.find? key = some set → set.Nonempty

section Records

variable {sets : KeyedSets κ α} {related : κ → α → Prop}

theorem records_empty : Records (.empty : KeyedSets κ α) fun _ _ => False := by
  constructor
  · simp [members]
  · simp

theorem Records.congr {other : κ → α → Prop} (records : Records sets related)
    (same : ∀ key value, related key value ↔ other key value) : Records sets other :=
  ⟨fun key value => (records.mem_iff key value).trans (same key value), records.nonempty⟩

variable {key : κ}

theorem Records.find?_eq_some_iff (records : Records sets related) {set : Finset α} :
    sets.find? key = some set ↔ set.Nonempty ∧ ∀ value, value ∈ set ↔ related key value := by
  constructor
  · intro found
    refine ⟨records.nonempty key set found, fun value => ?_⟩
    rw [← records.mem_iff, members, found, Option.getD_some]
  · rintro ⟨⟨value, mem⟩, relatedIff⟩
    have isMember := (records.mem_iff key value).mpr ((relatedIff value).mp mem)
    cases found : sets.find? key with
    | none => simp [members, found] at isMember
    | some present =>
      congr 1
      ext other
      rw [relatedIff, ← records.mem_iff, members, found, Option.getD_some]

def keys (sets : KeyedSets κ α) : Finset κ :=
  (sets.rows.map Prod.fst).toFinset

theorem card_keys (sets : KeyedSets κ α) : (keys sets).card = sets.size := by
  have distinct : (sets.rows.map Prod.fst).Nodup := by
    rw [List.Nodup, pairwise_map]
    exact sets.sorted.imp fun ordered => ordered.ne
  rw [keys, toFinset_card_of_nodup distinct, length_map, size]

theorem mem_keys_iff_found : key ∈ keys sets ↔ ∃ set, sets.find? key = some set := by
  simp [keys, find?_eq_some_iff]

theorem Records.mem_keys (records : Records sets related) :
    key ∈ keys sets ↔ ∃ value, related key value := by
  rw [mem_keys_iff_found]
  constructor
  · rintro ⟨set, found⟩
    obtain ⟨⟨value, mem⟩, relatedIff⟩ := records.find?_eq_some_iff.mp found
    exact ⟨value, (relatedIff value).mp mem⟩
  · rintro ⟨value, isRelated⟩
    have mem := (records.mem_iff key value).mpr isRelated
    exact ⟨members sets key, records.find?_eq_some_iff.mpr ⟨⟨value, mem⟩, records.mem_iff key⟩⟩

theorem Records.sum_card_eq [LinearOrder α] {converse : KeyedSets α κ}
    (records : Records sets related)
    (converseRecords : Records converse fun value key => related key value) :
    ∑ key ∈ keys sets, (members sets key).card =
      ∑ value ∈ keys converse, (members converse value).card := by
  classical
  have counted := @Finset.sum_card_bipartiteAbove_eq_sum_card_bipartiteBelow
    κ α related (keys sets) (keys converse) (fun _ _ => Classical.dec _)
  have above : ∀ key, Finset.bipartiteAbove related (keys converse) key = members sets key := by
    intro key
    ext value
    rw [Finset.mem_bipartiteAbove, records.mem_iff, converseRecords.mem_keys]
    exact ⟨And.right, fun isRelated => ⟨⟨key, isRelated⟩, isRelated⟩⟩
  have below : ∀ value, Finset.bipartiteBelow related (keys sets) value =
      members converse value := by
    intro value
    ext key
    rw [Finset.mem_bipartiteBelow, converseRecords.mem_iff, records.mem_keys]
    exact ⟨And.right, fun isRelated => ⟨⟨value, isRelated⟩, isRelated⟩⟩
  simpa only [above, below] using counted

end Records

section Changes

variable [DecidableEq α]

def add (sets : KeyedSets κ α) (key : κ) (value : α) : KeyedSets κ α :=
  sets.put key (insert value (members sets key))

def addAll (sets : KeyedSets κ α) (pairs : List (κ × α)) : KeyedSets κ α :=
  pairs.foldl (fun sets pair => add sets pair.1 pair.2) sets

theorem sorted_rowWithout (sets : KeyedSets κ α) (value : α) :
    (sets.rows.filterMap (rowWithout value)).Pairwise fun first second => first.1 < second.1 := by
  refine sets.sorted.filterMap _ ?_
  rintro first second ordered ⟨firstKey, _⟩ isFirst ⟨secondKey, _⟩ isSecond
  rw [← (rowWithout_eq_some_iff.mp isFirst).1, ← (rowWithout_eq_some_iff.mp isSecond).1]
  exact ordered

def removeValue (sets : KeyedSets κ α) (value : α) : KeyedSets κ α :=
  ⟨sets.rows.filterMap (rowWithout value), sorted_rowWithout sets value⟩

variable {sets : KeyedSets κ α} {related : κ → α → Prop}

theorem records_add (records : Records sets related) (key : κ) (value : α) :
    Records (add sets key value) fun otherKey otherValue =>
      (otherKey = key ∧ otherValue = value) ∨ related otherKey otherValue := by
  constructor
  · intro otherKey otherValue
    rw [members, add, find?_put]
    split_ifs with same
    · subst same
      simp [records.mem_iff]
    · rw [← records.mem_iff, members]
      simp [same]
  · intro otherKey set found
    rw [add, find?_put] at found
    split_ifs at found with same
    · rw [← Option.some.inj found]
      exact Finset.insert_nonempty _ _
    · exact records.nonempty otherKey set found

theorem records_addAll (records : Records sets related) (pairs : List (κ × α)) :
    Records (addAll sets pairs) fun key value => (key, value) ∈ pairs ∨ related key value := by
  induction pairs generalizing sets related with
  | nil => exact records.congr (by simp)
  | cons pair rest ih =>
    refine (ih (records_add records pair.1 pair.2)).congr ?_
    intro key value
    rw [mem_cons, Prod.ext_iff, or_assoc]
    exact or_left_comm

theorem records_addAll_empty (pairs : List (κ × α)) :
    Records (addAll .empty pairs) fun key value => (key, value) ∈ pairs :=
  (records_addAll records_empty pairs).congr (by simp)

theorem find?_removeValue_iff {removed : α} {key : κ} {set : Finset α} :
    (removeValue sets removed).find? key = some set ↔
      ∃ whole, sets.find? key = some whole ∧ whole.erase removed = set ∧ set.Nonempty := by
  simp only [find?_eq_some_iff, removeValue, mem_filterMap,
    rowWithout_eq_some_iff, Prod.exists]
  constructor
  · rintro ⟨_, whole, mem, rfl, kept⟩
    exact ⟨whole, mem, kept⟩
  · rintro ⟨whole, mem, kept⟩
    exact ⟨key, whole, mem, rfl, kept⟩

theorem records_removeValue (records : Records sets related) (removed : α) :
    Records (removeValue sets removed) fun key value => value ≠ removed ∧ related key value := by
  constructor
  · intro key value
    rw [← records.mem_iff, ← Finset.mem_erase]
    cases whole : sets.find? key with
    | none =>
      have absent : (removeValue sets removed).find? key = none := by
        rw [Option.eq_none_iff_forall_ne_some]
        intro set found
        obtain ⟨whole', present, -⟩ := find?_removeValue_iff.mp found
        rw [whole] at present
        cases present
      simp [members, whole, absent]
    | some set =>
      rw [members, members, whole, Option.getD_some]
      rcases (set.erase removed).eq_empty_or_nonempty with emptied | ne
      · have absent : (removeValue sets removed).find? key = none := by
          rw [Option.eq_none_iff_forall_ne_some]
          intro other found
          obtain ⟨whole', present, rfl, left⟩ := find?_removeValue_iff.mp found
          obtain rfl := Option.some.inj (whole.symm.trans present)
          rw [emptied] at left
          exact Finset.not_nonempty_empty left
        rw [absent, emptied, Option.getD_none]
      · rw [find?_removeValue_iff.mpr ⟨set, whole, rfl, ne⟩, Option.getD_some]
  · intro key set found
    obtain ⟨whole, -, -, ne⟩ := find?_removeValue_iff.mp found
    exact ne

end Changes

end KeyedSets

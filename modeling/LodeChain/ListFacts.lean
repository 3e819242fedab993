import Mathlib.Data.Finset.Erase
import Mathlib.Data.Finset.Insert
import Mathlib.Data.List.Chain
import Mathlib.Data.List.DropRight

/-!
# Lists

Facts about related lists and about the last entries of a list.
-/

namespace ListFacts

open List

variable {α β : Type*}

theorem exists_of_mem_left {relation : α → β → Prop} {left : List α} {right : List β}
    (related : List.Forall₂ relation left right) {first : α} (mem : first ∈ left) :
    ∃ second ∈ right, relation first second := by
  induction related with
  | nil => simp at mem
  | cons headRelated _ ih =>
    rcases mem_cons.mp mem with eq | later
    · exact ⟨_, mem_cons_self, eq ▸ headRelated⟩
    · obtain ⟨second, secondMember, secondRelated⟩ := ih later
      exact ⟨second, mem_cons_of_mem _ secondMember, secondRelated⟩

theorem map_eq_of_map_eq {γ : Type*} {key : α → β} {value : α → γ}
    {left right : List α} (keys : left.map key = right.map key)
    (determined : ∀ first ∈ left, ∀ second ∈ right,
      key first = key second → value first = value second) : left.map value = right.map value := by
  induction left generalizing right with
  | nil => rw [map_eq_nil_iff.mp keys.symm]
  | cons first rest ih =>
    cases right with
    | nil => simp at keys
    | cons second others =>
      obtain ⟨same, later⟩ := cons.inj keys
      rw [map_cons, map_cons, determined first mem_cons_self second mem_cons_self same,
        ih later fun one oneMember other otherMember =>
          determined one (mem_cons_of_mem _ oneMember) other (mem_cons_of_mem _ otherMember)]

variable {value : α} {list : List α}

theorem getElem?_of_isPrefix {first whole : List α} {index : Nat}
    (isPrefix : first <+: whole) (found : first[index]? = some value) :
    whole[index]? = some value := by
  obtain ⟨rest, rfl⟩ := isPrefix
  rw [List.getElem?_append_left (List.getElem?_eq_some_iff.mp found).choose, found]

theorem eq_of_nodup_filterMap {image : α → Option β} (distinct : (list.filterMap image).Nodup)
    {first second : α} (firstMember : first ∈ list) (secondMember : second ∈ list) {value : β}
    (firstImage : image first = some value) (secondImage : image second = some value) :
    first = second := by
  by_contra different
  have symmetric : Std.Symm fun first second : α => ∀ value, image first = some value →
        ∀ other, image second = some other → value ≠ other :=
    ⟨fun _ _ apart _ found _ other => (apart _ other _ found).symm⟩
  rw [List.Nodup, pairwise_filterMap] at distinct
  exact distinct.forall firstMember secondMember different _ firstImage _ secondImage rfl

theorem map_range_step (lows highs : Nat) (low high : α) :
    (range (lows + highs)).map (fun index => if index < lows then low else high) =
      replicate lows low ++ replicate highs high := by
  rw [range_add, map_append, map_map]
  congr 1
  · refine eq_replicate_iff.mpr ⟨by simp, ?_⟩
    intro value mem
    obtain ⟨index, lt, eq⟩ := mem_map.mp mem
    rw [if_pos (mem_range.mp lt)] at eq
    exact eq.symm
  · refine eq_replicate_iff.mpr ⟨by simp, ?_⟩
    intro value mem
    obtain ⟨index, -, eq⟩ := mem_map.mp mem
    rw [Function.comp_apply, if_neg (by omega)] at eq
    exact eq.symm

theorem map_getD_range' (values : List α) (fallback : α) {start count : Nat}
    (lt : start + count ≤ values.length) :
    (range' start count).map (fun index => values.getD index fallback) =
      (values.drop start).take count := by
  refine ext_getElem ?_ ?_
  · simp
    omega
  · intro index left _
    rw [length_map, length_range'] at left
    rw [getElem_map, getElem_range', getElem_take, getElem_drop, Nat.one_mul, getD_eq_getElem?_getD,
      getElem?_eq_getElem, Option.getD_some]

theorem dropWhile_eq_drop (keep : α → Bool) (list : List α) :
    list.dropWhile keep = list.drop (list.takeWhile keep).length := by
  have split := congrArg (drop (list.takeWhile keep).length)
    (takeWhile_append_dropWhile (p := keep) (l := list))
  rw [drop_left] at split
  exact split

theorem of_lt_length_takeWhile {keep : α → Bool} {index : Nat}
    (before : index < (list.takeWhile keep).length) (found : list[index]? = some value) :
    keep value = true := by
  have same := getElem?_of_isPrefix (List.takeWhile_prefix keep) (getElem?_eq_getElem before)
  rw [found, Option.some.injEq] at same
  rw [same]
  exact mem_takeWhile_imp (getElem_mem before)

theorem not_of_length_takeWhile {keep : α → Bool}
    (found : list[(list.takeWhile keep).length]? = some value) : keep value = false := by
  induction list with
  | nil => simp at found
  | cons head rest ih =>
    rw [takeWhile_cons] at found
    split at found
    · exact ih (by simpa using found)
    · rename_i dropped
      obtain rfl : head = value := by simpa using found
      exact Bool.eq_false_iff.mpr dropped

theorem mem_dropWhile_iff {key : α → Nat} {bound : Nat}
    (ordered : list.Pairwise fun prev later => key prev ≤ key later) {entry : α} :
    (entry ∈ list.dropWhile fun entry => decide (key entry < bound)) ↔
      entry ∈ list ∧ bound ≤ key entry := by
  induction list with
  | nil => simp
  | cons head tail ih =>
    obtain ⟨first, rest⟩ := pairwise_cons.mp ordered
    by_cases small : key head < bound
    · rw [dropWhile_cons_of_pos (by simpa using small), ih rest, mem_cons]
      constructor
      · rintro ⟨mem, large⟩
        exact ⟨.inr mem, large⟩
      · rintro ⟨rfl | mem, large⟩
        · exact absurd small (not_lt.mpr large)
        · exact ⟨mem, large⟩
    · rw [dropWhile_cons_of_neg (by simpa using small)]
      constructor
      · intro mem
        refine ⟨mem, ?_⟩
        rcases mem_cons.mp mem with rfl | later
        · exact not_lt.mp small
        · exact (not_lt.mp small).trans (first entry later)
      · exact And.left

theorem rtake_append_singleton (list : List α) (last : α) (count : Nat) :
    (list.rtake count ++ [last]).rtake count = (list ++ [last]).rtake count := by
  have shorter : list.length - count ≤ list.length := Nat.sub_le _ _
  simp only [rtake]
  rw [← drop_append_of_le_length shorter, drop_drop, length_drop, length_append]
  congr 1
  omega

def EachAfter (property : List α → α → Prop) (list : List α) : Prop :=
  ∀ earlier entry later, list = earlier ++ entry :: later → property earlier entry

namespace EachAfter

variable {property : List α → α → Prop}

theorem nil : EachAfter property [] := by
  intro prev entry later eq
  simp at eq

theorem append_singleton {last : α} (each : EachAfter property list) (holds : property list last) :
    EachAfter property (list ++ [last]) := by
  intro prev entry later eq
  rcases eq_nil_or_concat' later with rfl | ⟨before, final, rfl⟩
  · obtain ⟨rfl, rfl⟩ := append_inj' eq rfl |>.imp id singleton_inj.mp
    exact holds
  · rw [← cons_append, ← append_assoc] at eq
    obtain ⟨shorter, -⟩ := append_inj' eq rfl
    exact each prev entry before shorter

theorem of_append {later : List α} (each : EachAfter property (list ++ later)) :
    EachAfter property list := by
  intro prev entry rest eq
  refine each prev entry (rest ++ later) ?_
  rw [eq, append_assoc, cons_append]

theorem take (each : EachAfter property list) (count : Nat) :
    EachAfter property (list.take count) := by
  rw [← take_append_drop count list] at each
  exact each.of_append

theorem of_mem_append {first second : List α}
    (each : EachAfter property (first ++ second)) {entry : α} (mem : entry ∈ second) :
    ∃ earlier, (∀ other ∈ first, other ∈ earlier) ∧ property earlier entry := by
  obtain ⟨before, later, rfl⟩ := append_of_mem mem
  exact ⟨first ++ before, fun other lt => mem_append_left _ lt,
    each _ _ later (append_assoc _ _ _).symm⟩

theorem of_forall_fin (holds : ∀ index : Fin list.length,
    property (list.take index) (list.get index)) : EachAfter property list := by
  intro prev entry later eq
  subst eq
  have last := holds ⟨prev.length, by simp⟩
  simpa using last

theorem of_getElem? {index : Nat} {entry : α}
    (each : EachAfter property list) (found : list[index]? = some entry) :
    property (list.take index) entry := by
  obtain ⟨lt, eq⟩ := List.getElem?_eq_some_iff.mp found
  refine each _ entry (list.drop (index + 1)) ?_
  rw [← eq, getElem_cons_drop, take_append_drop]

end EachAfter

end ListFacts

/-! ## Picking by keys -/

namespace StablePicking

open List

variable {α κ : Type*} [DecidableEq κ] (key : α → κ)

def pickAll : List κ → List α → List α × List α
  | [], list => ([], list)
  | wanted :: keys, list =>
    let later := pickAll keys (list.filter (key · ≠ wanted))
    (list.filter (key · = wanted) ++ later.1, later.2)

theorem pickAll_perm (keys : List κ) (list : List α) :
    ((pickAll key keys list).1 ++ (pickAll key keys list).2).Perm list := by
  induction keys generalizing list with
  | nil => exact .refl _
  | cons wanted keys ih =>
    rw [pickAll, append_assoc]
    have others := (ih (list.filter (key · ≠ wanted))).append_left (list.filter (key · = wanted))
    refine others.trans ?_
    simpa using filter_append_perm (fun entry => decide (key entry = wanted)) list

theorem pickAll_snd (keys : List κ) (list : List α) :
    (pickAll key keys list).2 = list.filter (key · ∉ keys) := by
  induction keys generalizing list with
  | nil => simp [pickAll]
  | cons wanted keys ih =>
    rw [pickAll, ih, filter_filter]
    congr 1
    funext entry
    simp [Bool.and_comm]

theorem pickAll_fst {keys : List κ} (distinct : keys.Nodup) (list : List α) :
    (pickAll key keys list).1 = keys.flatMap fun wanted => list.filter (key · = wanted) := by
  induction keys generalizing list with
  | nil => rfl
  | cons wanted keys ih =>
    obtain ⟨fresh, rest⟩ := nodup_cons.mp distinct
    rw [pickAll]
    dsimp only
    rw [ih rest]
    congr 1
    refine flatMap_congr ?_
    intro other mem
    rw [filter_filter]
    refine filter_congr ?_
    intro entry _
    have apart : other ≠ wanted := fun same => fresh (same ▸ mem)
    by_cases mine : key entry = other
    · simp [mine, apart]
    · simp [mine]

theorem filter_pickAll_append (keys : List κ) (list : List α) (wanted : κ) :
    ((pickAll key keys list).1 ++ (pickAll key keys list).2).filter
        (key · = wanted) = list.filter (key · = wanted) := by
  induction keys generalizing list with
  | nil => rfl
  | cons first keys ih =>
    rw [pickAll, append_assoc, filter_append]
    rw [ih, filter_filter, filter_filter]
    by_cases same : first = wanted
    · subst same
      simp
    · have others : list.filter (fun entry => decide (key entry = wanted) &&
          decide (key entry = first)) = [] := by
        rw [filter_eq_nil_iff]
        intro entry _ both
        simp at both
        exact same (both.2.symm.trans both.1)
      rw [others]
      refine filter_congr ?_
      intro entry _
      by_cases mine : key entry = wanted
      · simp [mine, Ne.symm same]
      · simp [mine]

section Complete

variable {keys : List κ} {list : List α} (complete : ∀ entry ∈ list, key entry ∈ keys)

include complete

theorem pickAll_snd_eq_nil : (pickAll key keys list).2 = [] := by
  rw [pickAll_snd, filter_eq_nil_iff]
  intro entry mem
  simpa using complete entry mem

theorem pickAll_fst_perm : (pickAll key keys list).1.Perm list := by
  have permuted := pickAll_perm key keys list
  rw [pickAll_snd_eq_nil key complete, append_nil] at permuted
  exact permuted

theorem filter_pickAll (wanted : κ) :
    (pickAll key keys list).1.filter (key · = wanted) = list.filter (key · = wanted) := by
  have kept := filter_pickAll_append key keys list wanted
  rw [pickAll_snd_eq_nil key complete, append_nil] at kept
  exact kept

theorem pickAll_pickAll (distinct : keys.Nodup) :
    (pickAll key keys (pickAll key keys list).1).1 = (pickAll key keys list).1 := by
  rw [pickAll_fst key distinct, pickAll_fst key distinct]
  refine flatMap_congr ?_
  intro wanted _
  rw [← pickAll_fst key distinct, filter_pickAll key complete]

end Complete

end StablePicking

/-! ## Paths along parent links -/

namespace LinkedPaths

open List

variable {Node Id : Type*} (idOf parentOf : Node → Id) (root : Id)

def tipId : List Node → Id
  | [] => root
  | node :: _ => idOf node

def Linked : List Node → Prop
  | [] => True
  | node :: rest => parentOf node = tipId idOf root rest ∧ Linked rest

variable {idOf parentOf root}

theorem Linked.tail {node : Node} {rest : List Node}
    (linked : Linked idOf parentOf root (node :: rest)) : Linked idOf parentOf root rest :=
  linked.2

theorem Linked.of_append {newer older : List Node}
    (linked : Linked idOf parentOf root (newer ++ older)) : Linked idOf parentOf root older := by
  induction newer with
  | nil => exact linked
  | cons node rest ih => exact ih linked.tail

section

variable {known : Set Node} (injective : Set.InjOn idOf known)

include injective

theorem Linked.unique (unrooted : ∀ node ∈ known, idOf node ≠ root) {node : Node}
    {left right : List Node} (leftKnown : ∀ other ∈ left, other ∈ known)
    (rightKnown : ∀ other ∈ right, other ∈ known)
    (leftLinked : Linked idOf parentOf root (node :: left))
    (rightLinked : Linked idOf parentOf root (node :: right)) : left = right := by
  induction left generalizing node right with
  | nil =>
    cases right with
    | nil => rfl
    | cons other rest =>
      exact absurd (rightLinked.1.symm.trans leftLinked.1)
        (unrooted other (rightKnown other mem_cons_self))
  | cons first rest ih =>
    rw [forall_mem_cons] at leftKnown
    cases right with
    | nil => exact absurd (leftLinked.1.symm.trans rightLinked.1) (unrooted first leftKnown.1)
    | cons other others =>
      rw [forall_mem_cons] at rightKnown
      have same : first = other := injective leftKnown.1 rightKnown.1
        (leftLinked.1.symm.trans rightLinked.1)
      subst same
      rw [ih leftKnown.2 rightKnown.2 leftLinked.tail rightLinked.tail]

theorem Linked.nodup (unrooted : ∀ node ∈ known, idOf node ≠ root) {path : List Node}
    (linked : Linked idOf parentOf root path) (lt : ∀ node ∈ path, node ∈ known) :
    path.Nodup := by
  induction path with
  | nil => exact nodup_nil
  | cons node rest ih =>
    rw [forall_mem_cons] at lt
    refine nodup_cons.mpr ⟨?_, ih linked.tail lt.2⟩
    intro mem
    obtain ⟨newer, older, rfl⟩ := append_of_mem mem
    have olderInside : ∀ other ∈ older, other ∈ known := fun other below =>
      lt.2 other (mem_append_right _ (mem_cons_of_mem _ below))
    have same := congrArg List.length (Linked.unique injective unrooted
      lt.2 olderInside linked linked.tail.of_append)
    simp at same
    omega

theorem take_eq_of_id_eq {left right : List Node}
    (leftLinked : left.IsChain fun lower upper => parentOf upper = idOf lower)
    (rightLinked : right.IsChain fun lower upper => parentOf upper = idOf lower)
    (leftKnown : ∀ node ∈ left, node ∈ known) (rightKnown : ∀ node ∈ right, node ∈ known)
    {index : Nat} (leftInside : index < left.length) (rightInside : index < right.length)
    (same : idOf left[index] = idOf right[index]) :
    left.take (index + 1) = right.take (index + 1) := by
  induction index with
  | zero =>
    have first := injective (leftKnown _ (getElem_mem leftInside))
      (rightKnown _ (getElem_mem rightInside)) same
    rw [take_succ_eq_append_getElem leftInside, take_succ_eq_append_getElem, first]
    rfl
  | succ index ih =>
    have node := injective (leftKnown _ (getElem_mem leftInside))
      (rightKnown _ (getElem_mem rightInside)) same
    have leftParent := isChain_iff_getElem.mp leftLinked index leftInside
    have rightParent := isChain_iff_getElem.mp rightLinked index rightInside
    have parents : idOf left[index] = idOf right[index] := by rw [← leftParent, ← rightParent, node]
    rw [take_succ_eq_append_getElem leftInside, take_succ_eq_append_getElem rightInside, node,
      ih (by omega) (by omega) parents]

end

end LinkedPaths

/-! ## Codes that can be read off the front -/

def PrefixFree {α β : Type*} (encode : α → List β) : Prop :=
  ∀ ⦃first second : α⦄ ⦃rest otherRest : List β⦄,
    encode first ++ rest = encode second ++ otherRest → first = second ∧ rest = otherRest

namespace PrefixFree

open List

variable {α β : Type*} {encode : α → List β}

theorem injective (free : PrefixFree encode) : Function.Injective encode := by
  intro first second eq
  have appended : encode first ++ [] = encode second ++ [] := by rw [eq]
  exact (free appended).1

theorem of_length {size : Nat} (length : ∀ value, (encode value).length = size)
    (injective : Function.Injective encode) : PrefixFree encode := by
  intro first second rest otherRest eq
  obtain ⟨same, after⟩ := append_inj eq ((length first).trans (length second).symm)
  exact ⟨injective same, after⟩

theorem flatMap (free : PrefixFree encode) {first second : List α}
    {rest otherRest : List β} (length : first.length = second.length)
    (eq : first.flatMap encode ++ rest = second.flatMap encode ++ otherRest) :
    first = second ∧ rest = otherRest := by
  induction first generalizing second with
  | nil =>
    obtain rfl := length_eq_zero_iff.mp length.symm
    exact ⟨rfl, eq⟩
  | cons value values ih =>
    cases second with
    | nil => cases length
    | cons other others =>
      rw [flatMap_cons, flatMap_cons, append_assoc, append_assoc] at eq
      obtain ⟨rfl, later⟩ := free eq
      obtain ⟨rfl, last⟩ := ih (Nat.succ.inj length) later
      exact ⟨rfl, last⟩

theorem counted {count : Nat → List β} (countFree : PrefixFree count) (free : PrefixFree encode) :
    PrefixFree fun values : List α => count values.length ++ values.flatMap encode := by
  intro first second rest otherRest eq
  rw [append_assoc, append_assoc] at eq
  obtain ⟨length, later⟩ := countFree eq
  exact free.flatMap length later

end PrefixFree

/-! ## A cache with rotating slots -/

structure RotatingCache (α : Type) where
  data : Finset α
  buf : Nat → α
  counter : Nat

namespace RotatingCache

variable {α : Type} [DecidableEq α]

def empty (unused : α) : RotatingCache α :=
  ⟨∅, fun _ => unused, 0⟩

def has (cache : RotatingCache α) (value : α) : Bool :=
  decide (value ∈ cache.data)

/-- The value whose slot is next is dropped even if it was never added, or is the
new one. -/
def add (cache : RotatingCache α) (maxSize : Nat) (value : α) : RotatingCache α :=
  if value ∈ cache.data then cache
  else
    { data := (insert value cache.data).erase (cache.buf (cache.counter % maxSize))
      buf := Function.update cache.buf (cache.counter % maxSize) value
      counter := cache.counter + 1 }

theorem has_add {cache : RotatingCache α} {maxSize : Nat} {value other : α}
    (held : (cache.add maxSize value).has other = true) :
    other = value ∨ cache.has other = true := by
  simp [has] at held ⊢
  unfold add at held
  split_ifs at held
  · exact Or.inr held
  · exact Finset.mem_insert.mp (Finset.mem_of_mem_erase held)

end RotatingCache

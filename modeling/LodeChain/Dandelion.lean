import LodeChain.OrderedTable

/-!
# Dandelion++ connection maps

A `connection_map` assigns the sources of transactions to a few outgoing connections, the stems.
-/

namespace LodeChain

namespace Dandelion

open List

/-- `boost::uuids::uuid`, compared as a number. -/
abbrev Uuid := Nat

def nilUuid : Uuid := 0

def live (outs : List Uuid) : List Uuid :=
  outs.filter fun out => out != nilUuid

structure ConnectionMap where
  outMapping : List Uuid
  inMapping : OrderedTable Uuid Nat
  usageCount : List Nat

/-- The loop of `select_stem`; `lowest` is `none` as long as it has the largest value of its type.
-/
def collectChoices (usage : List Nat) : List Uuid → Nat → Option Nat → List Nat → List Nat
  | [], _, _, choices => choices
  | out :: outs, location, lowest, choices =>
    if out = nilUuid then collectChoices usage outs (location + 1) lowest choices
    else
      let count := usage.getD location 0
      if lowest.all (count < ·) then
        collectChoices usage outs (location + 1) (some count) [location]
      else if lowest = some count then
        collectChoices usage outs (location + 1) lowest (choices ++ [location])
      else collectChoices usage outs (location + 1) lowest choices

/-- `select_stem`; `none` is the largest value of its type. -/
def selectStem (usage : List Nat) (outMap : List Uuid) (pick : Nat) : Option Nat :=
  if usage.length < outMap.length then none
  else
    match collectChoices usage outMap 0 none [] with
    | [] => none
    | [only] => some only
    | choices => choices[pick % choices.length]?

def swapped (ids : List Uuid) (i j : Nat) : List Uuid :=
  (ids.toArray.swapIfInBounds i j).toList

def drawStems (picks : Nat → Nat) : Nat → Nat → List Uuid → List Uuid
  | 0, _, outs => outs
  | rounds + 1, i, outs =>
    drawStems picks rounds (i + 1) (swapped outs i (i + picks i % (outs.length - i)))

/-- The constructor; it throws when the number of stems is the largest value of
its type. -/
def connectionMap (outConnections : List Uuid) (stems : Nat) (picks : Nat → Nat)
    (shuffle : List Uuid → List Uuid) : Option ConnectionMap :=
  if stems = 2 ^ 64 - 1 then none
  else
    some {
      outMapping := if stems < outConnections.length then
          (drawStems picks stems 0 outConnections).take stems
        else shuffle outConnections
      inMapping := OrderedTable.empty
      usageCount := List.replicate stems 0 }

/-- The stems that are left, the unused connections, and whether a stem is dead. -/
def markDead : List Uuid → List Uuid → List Uuid × List Uuid × Bool
  | [], current => ([], current, false)
  | existingOut :: outs, current =>
    let elem := current.findIdx fun id => !decide (id < existingOut)
    if current[elem]? = some existingOut then
      let later := markDead outs (current.eraseIdx elem)
      (existingOut :: later.1, later.2)
    else
      let later := markDead outs current
      (nilUuid :: later.1, later.2.1, true)

def popRandom (current : List Uuid) (pick : Nat) : Option (Uuid × List Uuid) :=
  let moved := swapped current (current.length - 1) (pick % current.length)
  moved.getLast?.map fun chosen => (chosen, moved.dropLast)

def fillStems (picks : Nat → Nat) : Nat → Nat → List Uuid → List Uuid → List Uuid
  | 0, _, outs, _ => outs
  | rounds + 1, i, outs, current =>
    match popRandom current (picks i) with
    | none => outs
    | some (chosen, others) =>
      if outs.length ≤ i then fillStems picks rounds (i + 1) (outs ++ [chosen]) others
      else if outs[i]? = some nilUuid then fillStems picks rounds (i + 1) (outs.set i chosen) others
      else fillStems picks rounds (i + 1) outs current

namespace ConnectionMap

variable (map : ConnectionMap)

def update (current : List Uuid) (picks : Nat → Nat) : ConnectionMap × Bool :=
  let marked := markDead map.outMapping (current.mergeSort fun left right => left ≤ right)
  if marked.2.2 = false ∧ marked.1.length = map.usageCount.length then
    ({ map with outMapping := marked.1 }, false)
  else
    let filled := fillStems picks map.usageCount.length 0 marked.1 marked.2.1
    ({ map with outMapping := filled }, marked.2.2 || marked.1.length < filled.length)

def assign (source : Uuid) (index : Nat) : ConnectionMap :=
  { map with
    inMapping := map.inMapping.put source index
    usageCount := map.usageCount.modify index (· + 1) }

def stem (index : Nat) : Uuid :=
  map.outMapping.getD index nilUuid

def getStem (source : Uuid) (pick : Nat) : ConnectionMap × Uuid :=
  match map.inMapping.find? source with
  | none =>
    match selectStem map.usageCount map.outMapping pick with
    | none => (map, nilUuid)
    | some index => (map.assign source index, map.stem index)
  | some elem =>
    if map.stem elem = nilUuid then
      let usage := map.usageCount.modify elem (· - 1)
      match selectStem usage map.outMapping pick with
      | none =>
        ({ map with inMapping := map.inMapping.discard source, usageCount := usage }, nilUuid)
      | some index => ({ map with usageCount := usage }.assign source index, map.stem index)
    else (map, map.stem elem)

end ConnectionMap

/-! ## Choosing a stem -/

variable {usage : List Nat} {outs : List Uuid} {pick : Nat}

variable {location : Nat} {lowest : Option Nat} {choices : List Nat} {outMap : List Uuid}
  {chosen : Uuid}

theorem collectChoices_mem
    {choice : Nat} (mem : choice ∈ collectChoices usage outs location lowest choices) :
    choice ∈ choices ∨ ∃ offset out, choice = location + offset ∧ outs[offset]? = some out ∧
        out ≠ nilUuid := by
  induction outs generalizing location lowest choices with
  | nil => exact Or.inl mem
  | cons out outs ih =>
    have shift : ∀ {chosen : List Nat}, choice ∈ chosen ∨
        (∃ offset other, choice = location + 1 + offset ∧
          outs[offset]? = some other ∧ other ≠ nilUuid) →
        choice ∈ chosen ∨ ∃ offset other, choice = location + offset ∧
          (out :: outs)[offset]? = some other ∧ other ≠ nilUuid := by
      rintro chosen (early | ⟨offset, other, rfl, found, nonNil⟩)
      · exact Or.inl early
      · exact Or.inr ⟨offset + 1, other, by omega, by simpa using found, nonNil⟩
    rw [collectChoices] at mem
    dsimp only at mem
    split_ifs at mem with dead lower eq
    · exact shift (ih mem)
    · rcases shift (ih mem) with here | later
      · rw [mem_singleton.mp here]
        exact Or.inr ⟨0, out, rfl, rfl, dead⟩
      · exact Or.inr later
    · rcases shift (ih mem) with here | later
      · rcases mem_append.mp here with early | new
        · exact Or.inl early
        · rw [mem_singleton.mp new]
          exact Or.inr ⟨0, out, rfl, rfl, dead⟩
      · exact Or.inr later
    · exact shift (ih mem)

theorem collectChoices_eq_nil (unset : lowest = none ↔ choices = [])
    (nothing : collectChoices usage outs location lowest choices = []) :
    choices = [] ∧ ∀ out ∈ outs, out = nilUuid := by
  induction outs generalizing location lowest choices with
  | nil => exact ⟨nothing, by simp⟩
  | cons out outs ih =>
    rw [collectChoices] at nothing
    dsimp only at nothing
    split_ifs at nothing with dead lower eq
    · obtain ⟨empty, others⟩ := ih unset nothing
      exact ⟨empty, forall_mem_cons.mpr ⟨dead, others⟩⟩
    · exact absurd (ih (by simp) nothing).1 (by simp)
    · exact absurd (ih (by simp [eq]) nothing).1 (by simp)
    · have isSet : lowest ≠ none := by
        rintro rfl
        exact lower rfl
      have chosen := (ih unset nothing).1
      exact absurd (unset.mpr chosen) isSet

theorem selectStem_eq_some {index : Nat} (selected : selectStem usage outMap pick = some index) :
    ∃ out, outMap[index]? = some out ∧ out ≠ nilUuid := by
  have mem : index ∈ collectChoices usage outMap 0 none [] := by
    rw [selectStem] at selected
    split_ifs at selected
    split at selected
    · cases selected
    · next only shape =>
      cases selected
      simp [shape]
    · exact mem_of_getElem? selected
  rcases collectChoices_mem mem with none_ | ⟨offset, out, rfl, found, nonNil⟩
  · cases none_
  · exact ⟨out, by simpa using found, nonNil⟩

theorem selectStem_eq_none (enough : outMap.length ≤ usage.length)
    (nothing : selectStem usage outMap pick = none) : ∀ out ∈ outMap, out = nilUuid := by
  have empty : collectChoices usage outMap 0 none [] = [] := by
    rw [selectStem, if_neg (by omega)] at nothing
    split at nothing
    · assumption
    · cases nothing
    · next choices more _ =>
      rw [List.getElem?_eq_none_iff] at nothing
      by_contra ne
      have := Nat.mod_lt pick (length_pos_iff.mpr ne)
      omega
  exact (collectChoices_eq_nil (by simp) empty).2

/-! ## The live stems -/

theorem swapped_perm (ids : List Uuid) (i j : Nat) : (swapped ids i j).Perm ids := by
  rw [swapped, Array.swapIfInBounds]
  split_ifs with first second
  · exact Array.perm_iff_toList_perm.mp (Array.swap_perm first second)
  · exact List.Perm.refl _
  · exact List.Perm.refl _

theorem drawStems_perm (picks : Nat → Nat) (rounds i : Nat) (outs : List Uuid) :
    (drawStems picks rounds i outs).Perm outs := by
  induction rounds generalizing i outs with
  | zero => exact List.Perm.refl _
  | succ rounds ih => exact (ih _ _).trans (swapped_perm _ _ _)

variable {current : List Uuid}

theorem popRandom_perm {others : List Uuid}
    (popped : popRandom current pick = some (chosen, others)) :
    (chosen :: others).Perm current := by
  obtain ⟨last, isLast, shape⟩ := Option.map_eq_some_iff.mp popped
  have whole := dropLast_append_getLast? last isLast
  cases shape
  refine (perm_append_singleton _ _).symm.trans ?_
  rw [whole]
  exact swapped_perm _ _ _

theorem markDead_perm (outs : List Uuid) (nonNil : nilUuid ∉ current) :
    (live (markDead outs current).1 ++ (markDead outs current).2.1).Perm current := by
  induction outs generalizing current with
  | nil => exact List.Perm.refl _
  | cons existingOut outs ih =>
    rw [markDead]
    split_ifs with found
    · obtain ⟨lt, value⟩ := List.getElem?_eq_some_iff.mp found
      have isLive : existingOut ≠ nilUuid := by
        rintro rfl
        exact nonNil (mem_of_getElem? found)
      have othersNonNil : nilUuid ∉ current.eraseIdx
          (current.findIdx fun id => !decide (id < existingOut)) :=
        fun mem => nonNil (mem_of_mem_eraseIdx mem)
      have others := ih othersNonNil
      have whole := getElem_cons_eraseIdx_perm lt
      rw [value] at whole
      refine List.Perm.trans ?_ whole
      simpa [live, isLive] using others.cons existingOut
    · simpa [live] using ih nonNil

theorem length_markDead (outs current : List Uuid) :
    (markDead outs current).1.length = outs.length := by
  induction outs generalizing current with
  | nil => rfl
  | cons existingOut outs ih =>
    rw [markDead]
    split_ifs
    · simpa using ih _
    · simpa using ih _

theorem live_set {i : Nat} (dead : outs[i]? = some nilUuid) (isLive : chosen ≠ nilUuid) :
    (live (outs.set i chosen)).Perm (chosen :: live outs) := by
  obtain ⟨lt, value⟩ := List.getElem?_eq_some_iff.mp dead
  have after := (set_perm_cons_eraseIdx lt chosen).filter (· != nilUuid)
  have before := (getElem_cons_eraseIdx_perm lt).filter (· != nilUuid)
  rw [value] at before
  rw [filter_cons_of_pos (by simpa using isLive)] at after
  exact after.trans (before.cons chosen)

theorem fillStems_perm (picks : Nat → Nat) (rounds i : Nat) (outs : List Uuid)
    (nonNil : nilUuid ∉ current) :
    ∃ left, (live (fillStems picks rounds i outs current) ++ left).Perm (live outs ++ current) := by
  induction rounds generalizing i outs current with
  | zero => exact ⟨current, List.Perm.refl _⟩
  | succ rounds ih =>
    rw [fillStems]
    cases popped : popRandom current (picks i) with
    | none => exact ⟨current, List.Perm.refl _⟩
    | some drawn =>
      obtain ⟨chosen, others⟩ := drawn
      have drawnPerm := popRandom_perm popped
      have isLive : chosen ≠ nilUuid := by
        rintro rfl
        exact nonNil (drawnPerm.subset mem_cons_self)
      have othersLive : nilUuid ∉ others := fun mem =>
        nonNil (drawnPerm.subset (mem_cons_of_mem _ mem))
      have moved : (chosen :: live outs ++ others).Perm (live outs ++ current) :=
        perm_middle.symm.trans (drawnPerm.append_left _)
      split_ifs with missing dead
      · obtain ⟨left, perm⟩ := ih _ _ othersLive
        refine ⟨left, perm.trans ?_⟩
        have appended : live (outs ++ [chosen]) = live outs ++ [chosen] := by simp [live, isLive]
        rw [appended]
        exact ((perm_append_singleton _ _).append_right others).trans moved
      · obtain ⟨left, perm⟩ := ih _ _ othersLive
        exact ⟨left, perm.trans (((live_set dead isLive).append_right others).trans moved)⟩
      · exact ih _ outs nonNil

theorem length_fillStems (picks : Nat → Nat) (rounds i : Nat) (outs current : List Uuid) :
    outs.length ≤ (fillStems picks rounds i outs current).length ∧
      (fillStems picks rounds i outs current).length ≤ max outs.length (i + rounds) := by
  induction rounds generalizing i outs current with
  | zero =>
    rw [fillStems]
    omega
  | succ rounds ih =>
    rw [fillStems]
    cases popRandom current (picks i) with
    | none =>
      simp only
      omega
    | some drawn =>
      simp only
      split_ifs with missing dead
      · have := ih (i + 1) (outs ++ [drawn.1]) drawn.2
        rw [length_append, length_singleton] at this
        omega
      · have := ih (i + 1) (outs.set i drawn.1) drawn.2
        rw [length_set] at this
        omega
      · have := ih (i + 1) outs current
        omega

namespace ConnectionMap

structure StemsFrom (map : ConnectionMap) (current : List Uuid) : Prop where
  distinct : (live map.outMapping).Nodup
  members : ∀ id ∈ live map.outMapping, id ∈ current

theorem StemsFrom.of_perm {map : ConnectionMap} {left current : List Uuid}
    (nodup : current.Nodup) (perm : (live map.outMapping ++ left).Perm current) :
    map.StemsFrom current where
  distinct := (nodup_append.mp (perm.nodup_iff.mpr nodup)).1
  members := fun _ mem => perm.subset (mem_append_left _ mem)

theorem update_stemsFrom (map : ConnectionMap) {current : List Uuid}
    (picks : Nat → Nat) (nodup : current.Nodup) (nonNil : nilUuid ∉ current) :
    (map.update current picks).1.StemsFrom current := by
  have sortedPerm := mergeSort_perm current fun left right => left ≤ right
  have sortedNonNil : nilUuid ∉ current.mergeSort fun left right => left ≤ right :=
    fun mem => nonNil (sortedPerm.subset mem)
  have marked := (markDead_perm map.outMapping sortedNonNil).trans sortedPerm
  rw [update]
  split_ifs with unchanged
  · exact StemsFrom.of_perm nodup marked
  · have unusedNonNil := fun mem => nonNil (marked.subset (mem_append_right _ mem))
    obtain ⟨left, filled⟩ := fillStems_perm picks _ 0 _ unusedNonNil
    exact StemsFrom.of_perm nodup (filled.trans marked)

end ConnectionMap

/-! ## Runs of a connection map -/

open OrderedTable

def Counts (rows : List (Uuid × Nat)) (usage : List Nat) : Prop :=
  ∀ i < usage.length, usage[i]? = some (rows.countP fun row => row.2 = i)

namespace Counts

variable {rows others : List (Uuid × Nat)} {source : Uuid} {index : Nat}

theorem of_perm (perm : rows.Perm others) (counts : Counts rows usage) : Counts others usage := by
  intro i lt
  rw [counts i lt, perm.countP_eq]

theorem cons (counts : Counts rows usage) :
    Counts ((source, index) :: rows) (usage.modify index (· + 1)) := by
  intro i lt
  rw [length_modify] at lt
  rw [List.getElem?_modify, counts i lt]
  by_cases same : index = i <;> simp [same]

theorem of_cons (counts : Counts ((source, index) :: rows) usage) :
    Counts rows (usage.modify index (· - 1)) := by
  intro i lt
  rw [length_modify] at lt
  rw [List.getElem?_modify, counts i lt]
  by_cases same : index = i <;> simp [same]

end Counts

namespace ConnectionMap

variable {map : ConnectionMap} {stems : Nat}

def sources (map : ConnectionMap) (index : Nat) : Nat :=
  map.inMapping.rows.countP fun row => row.2 = index

structure Consistent (map : ConnectionMap) (stems : Nat) : Prop where
  usageLength : map.usageCount.length = stems
  slots : map.outMapping.length ≤ stems
  mapped : ∀ row ∈ map.inMapping.rows, row.2 < map.outMapping.length
  counted : Counts map.inMapping.rows map.usageCount

theorem stem_of_getElem? {index : Nat} {out : Uuid} (found : map.outMapping[index]? = some out) :
    map.stem index = out := by
  rw [stem, getD_eq_getElem?_getD, found, Option.getD_some]

@[simp]
theorem find?_assign (map : ConnectionMap) (source : Uuid) (index : Nat) :
    (map.assign source index).inMapping.find? source = some index := by
  rw [assign, find?_put, if_pos rfl]

variable {source : Uuid}

theorem Consistent.assign {usage : List Nat} {index : Nat}
    (consistent : map.Consistent stems) (lengths : usage.length = stems)
    (others : Counts (map.inMapping.rows.filter fun row => row.1 != source) usage)
    (lt : index < map.outMapping.length) :
    ({ map with usageCount := usage }.assign source index).Consistent stems where
  usageLength := by
    rw [ConnectionMap.assign, length_modify]
    exact lengths
  slots := consistent.slots
  mapped := by
    intro row mem
    rcases mem_cons.mp ((map.inMapping.put_perm source index).subset mem) with rfl | old
    · exact lt
    · exact consistent.mapped row (mem_of_mem_filter old)
  counted := others.cons.of_perm (map.inMapping.put_perm source index).symm

theorem Consistent.getStem (consistent : map.Consistent stems) (source : Uuid) (pick : Nat) :
    (map.getStem source pick).1.Consistent stems := by
  rw [ConnectionMap.getStem]
  cases assigned : map.inMapping.find? source with
  | none =>
    have others : Counts (map.inMapping.rows.filter fun row => row.1 != source) map.usageCount := by
      rw [filter_of_absent assigned]
      exact consistent.counted
    cases selected : selectStem map.usageCount map.outMapping pick with
    | none => exact consistent
    | some index =>
      obtain ⟨out, found, -⟩ := selectStem_eq_some selected
      exact consistent.assign consistent.usageLength others (List.getElem?_eq_some_iff.mp found).1
  | some elem =>
    have others := (consistent.counted.of_perm (perm_of_find? assigned)).of_cons
    have lengths : (map.usageCount.modify elem (· - 1)).length = stems := by
      rw [length_modify]
      exact consistent.usageLength
    simp only
    split_ifs with dead
    · cases selected : selectStem (map.usageCount.modify elem (· - 1)) map.outMapping pick with
      | none =>
        refine ⟨lengths, consistent.slots, ?_, ?_⟩
        · intro row mem
          rw [discard_rows] at mem
          exact consistent.mapped row (mem_of_mem_filter mem)
        · rw [discard_rows]
          exact others
      | some index =>
        obtain ⟨out, found, -⟩ := selectStem_eq_some selected
        exact consistent.assign lengths others (List.getElem?_eq_some_iff.mp found).1
    · exact consistent

theorem Consistent.update (consistent : map.Consistent stems) (current : List Uuid)
    (picks : Nat → Nat) : (map.update current picks).1.Consistent stems := by
  have marked := length_markDead map.outMapping (current.mergeSort fun left right => left ≤ right)
  have filled := length_fillStems picks map.usageCount.length 0
    (markDead map.outMapping (current.mergeSort fun left right => left ≤ right)).1
    (markDead map.outMapping (current.mergeSort fun left right => left ≤ right)).2.1
  have slots := consistent.slots
  rw [consistent.usageLength] at filled
  rw [ConnectionMap.update]
  split_ifs with unchanged
  · refine ⟨consistent.usageLength, by simpa only [marked] using slots, ?_, consistent.counted⟩
    intro row mem
    simp [marked]
    exact consistent.mapped row mem
  · rw [consistent.usageLength]
    refine ⟨consistent.usageLength, by simp only; omega, ?_, consistent.counted⟩
    intro row mem
    have := consistent.mapped row mem
    simp only
    omega

/-! ## The answers of `get_stem` -/

@[simp]
theorem outMapping_getStem (map : ConnectionMap) (source : Uuid) (pick : Nat) :
    (map.getStem source pick).1.outMapping = map.outMapping := by
  rw [getStem]
  cases map.inMapping.find? source with
  | none => cases selectStem map.usageCount map.outMapping pick <;> rfl
  | some elem =>
    simp only
    split_ifs
    · cases selectStem (map.usageCount.modify elem (· - 1)) map.outMapping pick <;> rfl
    · rfl

def Assigned (map : ConnectionMap) (source id : Uuid) : Prop :=
  ∃ index, map.inMapping.find? source = some index ∧ map.stem index = id ∧ id ≠ nilUuid

theorem Assigned.getStem_eq {id : Uuid} (assigned : map.Assigned source id) (pick : Nat) :
    map.getStem source pick = (map, id) := by
  obtain ⟨index, found, rfl, isLive⟩ := assigned
  simp only [getStem, found, if_neg isLive]

theorem find?_getStem_of_ne (map : ConnectionMap) {other : Uuid}
    (ne : source ≠ other) (pick : Nat) :
    (map.getStem other pick).1.inMapping.find? source = map.inMapping.find? source := by
  rw [getStem]
  cases map.inMapping.find? other with
  | none =>
    cases selectStem map.usageCount map.outMapping pick with
    | none => rfl
    | some index => simp [assign, find?_put, ne]
  | some elem =>
    simp only
    split_ifs
    · cases selectStem (map.usageCount.modify elem (· - 1)) map.outMapping pick with
      | none => simp [find?_discard, ne]
      | some index => simp [assign, find?_put, ne]
    · rfl

theorem Assigned.getStem {id : Uuid} (assigned : map.Assigned source id)
    (other : Uuid) (pick : Nat) : (map.getStem other pick).1.Assigned source id := by
  by_cases same : source = other
  · subst same
    rw [assigned.getStem_eq]
    exact assigned
  · obtain ⟨index, found, isStem, isLive⟩ := assigned
    refine ⟨index, (map.find?_getStem_of_ne same pick).trans found, ?_, isLive⟩
    rw [stem, outMapping_getStem]
    exact isStem

theorem Consistent.getStem_cases (consistent : map.Consistent stems) (source : Uuid) (pick : Nat) :
    (map.getStem source pick).1.Assigned source (map.getStem source pick).2 ∨
      (map.getStem source pick).2 = nilUuid ∧ ∀ out ∈ map.outMapping, out = nilUuid := by
  have slots := consistent.slots
  have usageLength := consistent.usageLength
  rw [ConnectionMap.getStem]
  cases assigned : map.inMapping.find? source with
  | none =>
    cases selected : selectStem map.usageCount map.outMapping pick with
    | none => exact Or.inr ⟨rfl, selectStem_eq_none (by omega) selected⟩
    | some index =>
      obtain ⟨out, found, isLive⟩ := selectStem_eq_some selected
      refine Or.inl ⟨index, find?_assign _ _ _, rfl, ?_⟩
      simpa [stem_of_getElem? found] using isLive
  | some elem =>
    simp only
    split_ifs with dead
    · cases selected : selectStem (map.usageCount.modify elem (· - 1)) map.outMapping pick with
      | none =>
        refine Or.inr ⟨rfl, selectStem_eq_none ?_ selected⟩
        rw [length_modify]
        omega
      | some index =>
        obtain ⟨out, found, isLive⟩ := selectStem_eq_some selected
        refine Or.inl ⟨index, find?_assign _ _ _, rfl, ?_⟩
        simpa [stem_of_getElem? found] using isLive
    · exact Or.inl ⟨elem, assigned, rfl, dead⟩

def lookUp (map : ConnectionMap) (calls : List (Uuid × Nat)) : ConnectionMap :=
  calls.foldl (fun map call => (map.getStem call.1 call.2).1) map

theorem Assigned.lookUp {id : Uuid} (assigned : map.Assigned source id)
    (calls : List (Uuid × Nat)) : (map.lookUp calls).Assigned source id := by
  induction calls generalizing map with
  | nil => exact assigned
  | cons call calls ih => exact ih (assigned.getStem call.1 call.2)

theorem Consistent.lookUp (consistent : map.Consistent stems) (calls : List (Uuid × Nat)) :
    (map.lookUp calls).Consistent stems := by
  induction calls generalizing map with
  | nil => exact consistent
  | cons call calls ih => exact ih (consistent.getStem call.1 call.2)

theorem outMapping_lookUp (map : ConnectionMap) (calls : List (Uuid × Nat)) :
    (map.lookUp calls).outMapping = map.outMapping := by
  induction calls generalizing map with
  | nil => rfl
  | cons call calls ih => exact (ih _).trans (map.outMapping_getStem call.1 call.2)

theorem Consistent.getStem_again (consistent : map.Consistent stems) (source : Uuid)
    (pick again : Nat) (between : List (Uuid × Nat)) :
    (((map.getStem source pick).1.lookUp between).getStem source again).2 =
      (map.getStem source pick).2 := by
  rcases consistent.getStem_cases source pick with assigned | ⟨isNil, dead⟩
  · rw [(assigned.lookUp between).getStem_eq again]
  · have later := (consistent.getStem source pick).lookUp between
    rcases later.getStem_cases source again with ⟨index, found, isStem, isLive⟩ | ⟨againNil, -⟩
    · rw [stem, outMapping_getStem, outMapping_lookUp, outMapping_getStem] at isStem
      cases lt : map.outMapping[index]? with
      | none =>
        rw [getD_eq_getElem?_getD, lt] at isStem
        exact absurd isStem.symm isLive
      | some out =>
        rw [getD_eq_getElem?_getD, lt] at isStem
        exact absurd (isStem.symm.trans (dead out (mem_of_getElem? lt))) isLive
    · rw [againNil, isNil]

/-! ## Whole runs -/

/-- The maps that calls lead to, with the requested number of stems and the last connections. -/
inductive Reached (stems : Nat) : List Uuid → ConnectionMap → Prop
  | constructed {outConnections : List Uuid} {picks : Nat → Nat}
      {shuffle : List Uuid → List Uuid} {map : ConnectionMap}
      (distinct : outConnections.Nodup) (nonNil : nilUuid ∉ outConnections)
      (permutes : (shuffle outConnections).Perm outConnections)
      (made : connectionMap outConnections stems picks shuffle = some map) :
      Reached stems outConnections map
  | update {last : List Uuid} {map : ConnectionMap} (before : Reached stems last map)
      (current : List Uuid) (picks : Nat → Nat) (distinct : current.Nodup)
      (nonNil : nilUuid ∉ current) :
      Reached stems current (map.update current picks).1
  | getStem {last : List Uuid} {map : ConnectionMap} (before : Reached stems last map)
      (source : Uuid) (pick : Nat) :
      Reached stems last (map.getStem source pick).1

theorem connectionMap_spec {outConnections : List Uuid} {picks : Nat → Nat}
    {shuffle : List Uuid → List Uuid} (distinct : outConnections.Nodup)
    (permutes : (shuffle outConnections).Perm outConnections)
    (made : connectionMap outConnections stems picks shuffle = some map) :
    map.Consistent stems ∧ map.StemsFrom outConnections := by
  rw [connectionMap] at made
  split_ifs at made with largest few
  · cases made
    have drawn := drawStems_perm picks stems 0 outConnections
    have sub : (live ((drawStems picks stems 0 outConnections).take stems)).Sublist
        (drawStems picks stems 0 outConnections) :=
      filter_sublist.trans (take_sublist _ _)
    refine ⟨⟨by simp, by simp, by simp [empty], ?_⟩, ?_, ?_⟩
    · intro i lt
      simp_all [empty]
    · exact (drawn.nodup_iff.mpr distinct).sublist sub
    · exact fun id mem => drawn.subset (sub.subset mem)
  · cases made
    have sub : (live (shuffle outConnections)).Sublist (shuffle outConnections) := filter_sublist
    refine ⟨⟨by simp, ?_, by simp [empty], ?_⟩, ?_, ?_⟩
    · simp only [permutes.length_eq]
      omega
    · intro i lt
      simp_all [empty]
    · exact (permutes.nodup_iff.mpr distinct).sublist sub
    · exact fun id mem => permutes.subset (sub.subset mem)

theorem StemsFrom.getStem (from_ : map.StemsFrom current) (source : Uuid) (pick : Nat) :
    (map.getStem source pick).1.StemsFrom current where
  distinct := by
    rw [outMapping_getStem]
    exact from_.distinct
  members := by
    rw [outMapping_getStem]
    exact from_.members

theorem Reached.invariant {last : List Uuid} (reached : Reached stems last map) :
    map.Consistent stems ∧ map.StemsFrom last := by
  induction reached with
  | constructed distinct nonNil permutes made => exact connectionMap_spec distinct permutes made
  | update before current picks distinct nonNil ih =>
    exact ⟨ih.1.update current picks, update_stemsFrom _ picks distinct nonNil⟩
  | getStem before source pick ih => exact ⟨ih.1.getStem source pick, ih.2.getStem source pick⟩

/-- In every reached map the usage counts are the numbers of sources, the live stems are distinct
members of the last list, and there are no more slots than requested; nil is the answer only if no
stem lives, and an answer stays until the next update. -/
theorem reached_spec {last : List Uuid} (reached : Reached stems last map) :
    (∀ i < stems, map.usageCount[i]? = some (map.sources i)) ∧ map.usageCount.length = stems ∧
      ((map.outMapping.filter (· != nilUuid)).Nodup ∧
        ∀ id ∈ map.outMapping, id ≠ nilUuid → id ∈ last) ∧ map.outMapping.length ≤ stems ∧
      (∀ source pick, (map.getStem source pick).2 = nilUuid → ∀ id ∈ map.outMapping, id = nilUuid) ∧
      ∀ source pick again between,
        (((map.getStem source pick).1.lookUp between).getStem source again).2 =
          (map.getStem source pick).2 := by
  obtain ⟨consistent, stemsFrom⟩ := reached.invariant
  refine ⟨?_, consistent.usageLength, ⟨stemsFrom.distinct, ?_⟩, consistent.slots, ?_,
    consistent.getStem_again⟩
  · intro i inside
    exact consistent.counted i (consistent.usageLength.symm ▸ inside)
  · intro id member isLive
    exact stemsFrom.members id (mem_filter.mpr ⟨member, by simpa using isLive⟩)
  · intro source pick isNil
    rcases consistent.getStem_cases source pick with ⟨index, -, -, isLive⟩ | ⟨-, dead⟩
    · exact absurd isNil isLive
    · exact dead

theorem twoStems_spec :
    ∃ map : ConnectionMap, Reached 2 [6, 7] map ∧ map.outMapping.length ≤ 2 := by
  obtain ⟨made, isMade⟩ : ∃ made, connectionMap [5, 6] 2 id id = some made := ⟨_, rfl⟩
  have start : Reached 2 [5, 6] made :=
    Reached.constructed (by decide) (by decide) (List.Perm.refl _) isMade
  have lost := ((start.getStem 9 0).update [6, 7] id (by decide) (by decide)).getStem 9 0
  exact ⟨_, lost, (reached_spec lost).2.2.2.1⟩

end ConnectionMap

end Dandelion

end LodeChain

import LodeChain.PaymentCredits
import LodeChain.ListFacts

/-!
# Fields of the extra field, removed and sorted

`remove_field_from_tx_extra` and `sort_tx_extra` read the fields and write them again.
-/

namespace LodeChain

open Option

namespace TxExtra

open List

def storeField : Field → Option Bytes
  | .padding size =>
    if txExtraPaddingMaxCount < size then none
    else some (writeField (.padding size))
  | .nonce nonce =>
    if txExtraNonceMaxCount < nonce.length then none
    else some (writeField (.nonce nonce))
  | field => some (writeField field)

def pickLoop (type : FieldType) : Nat → Bytes → List Field → Option (Bytes × List Field)
  | 0, written, fields => some (written, fields)
  | rounds + 1, written, fields =>
    match fields.find? (·.type = type) with
    | none => some (written, fields)
    | some field =>
      (storeField field).bind fun bytes =>
        pickLoop type rounds (written ++ bytes) (fields.eraseP (·.type = type))

def pick (type : FieldType) (written : Bytes) (fields : List Field) : Option (Bytes × List Field) :=
  pickLoop type fields.length written fields

/-- The fields up to the first unreadable one, the bytes behind them, and whether all were read. -/
def readFieldsPartly : Nat → Bytes → List Field × Bytes × Bool
  | 0, bytes => ([], bytes, false)
  | rounds + 1, bytes =>
    match readField bytes with
    | none => ([], bytes, false)
    | some (field, rest) =>
      if rest = [] then ([field], [], true)
      else
        let later := readFieldsPartly rounds rest
        (field :: later.1, later.2)

def pickOrder : List FieldType :=
  [.pubKey, .additionalPubKeys, .nonce, .mergeMiningTag, .mysteriousMinergate, .padding]

def sortTxExtra (txExtra : Bytes) (allowPartial : Bool) : Option Bytes :=
  if txExtra = [] then some []
  else
    let read := readFieldsPartly txExtra.length txExtra
    if !read.2.2 ∧ !allowPartial then none
    else
      (pickOrder.foldlM (fun state type => pick type state.1 state.2)
          ([], read.1)).bind fun sorted =>
        if sorted.2 ≠ [] then none
        else some (if allowPartial then sorted.1 ++ read.2.1 else sorted.1)

/-! ## Fields that can be read back -/

def Field.Readable (field : Field) : Prop :=
  field.Fits ∧ match field with
    | .padding size => size ≤ txExtraPaddingMaxCount
    | .mergeMiningTag depth _ => depth < 2 ^ 64
    | _ => True

variable {bytes rest txExtra : Bytes}

theorem readPadding_le {size last : Nat}
    (read : readPadding size bytes = some (.padding last, rest)) :
    last ≤ txExtraPaddingMaxCount := by
  induction bytes generalizing size with
  | nil =>
    rw [readPadding] at read
    split_ifs at read with bounded
    cases read
    exact bounded
  | cons byte bytes ih =>
    rw [readPadding] at read
    split_ifs at read
    exact ih read

variable {field : Field} {rounds : Nat} {fields : List Field}

theorem readField_readable (read : readField bytes = some (field, rest)) : field.Readable := by
  refine ⟨(readField_fits read).1, ?_⟩
  obtain ⟨tag, after, rfl, reads⟩ := readsField_of_readField read
  cases reads with
  | padding found =>
    obtain ⟨last, -, rfl, rfl⟩ := readPadding_eq found
    exact readPadding_le found
  | mergeMiningTag _ number => exact readVarint_lt number
  | pubKey | nonce | additionalPubKeys | mysteriousMinergate => trivial

/-- Fields that can be written and read back: only the last of them is padding. -/
structure Written (fields : List Field) : Prop where
  readable : ∀ field ∈ fields, field.Readable
  paddingLast : ∀ field ∈ fields.dropLast, field.isPadding = false

theorem written_nil : Written [] :=
  ⟨by simp, by simp⟩

theorem readFields_readable (read : readFields rounds bytes = some fields) :
    ∀ field ∈ fields, field.Readable := by
  induction rounds generalizing bytes fields with
  | zero => cases read
  | succ rounds ih =>
    obtain ⟨⟨field, rest⟩, readFirst, later⟩ := bind_eq_some_iff.mp read
    have first := readField_readable readFirst
    split_ifs at later with ended
    · cases later
      simpa using first
    · obtain ⟨others, readOthers, rfl⟩ := map_eq_some_iff.mp later
      intro other mem
      rcases mem_cons.mp mem with rfl | inOthers
      · exact first
      · exact ih readOthers other inOthers

theorem written_of_readFields (read : readFields rounds bytes = some fields) : Written fields := by
  refine ⟨readFields_readable read, ?_⟩
  obtain ⟨front, last, rfl, -, frontFits⟩ := readFields_fits read
  intro field mem
  rw [dropLast_concat] at mem
  exact (frontFits field mem).2

theorem written_of_parseTxExtra (parsed : parseTxExtra txExtra = some fields) : Written fields := by
  rw [parseTxExtra] at parsed
  split_ifs at parsed with empty
  · cases parsed
    exact written_nil
  · exact written_of_readFields parsed

theorem Written.filter (written : Written fields) (keep : Field → Bool) :
    Written (fields.filter keep) := by
  refine ⟨fun field mem => written.readable field (mem_filter.mp mem).1, ?_⟩
  intro field mem
  rcases eq_nil_or_concat' fields with rfl | ⟨front, last, rfl⟩
  · cases mem
  · have frontPlain := written.paddingLast
    rw [dropLast_concat] at frontPlain
    rw [filter_append] at mem
    by_cases kept : keep last = true
    · rw [filter_singleton, kept, cond_true, dropLast_concat] at mem
      exact frontPlain field (mem_filter.mp mem).1
    · have dropped : keep last = false := by simpa using kept
      rw [filter_singleton, dropped, cond_false, append_nil] at mem
      exact frontPlain field (mem_filter.mp (mem_of_mem_dropLast mem)).1

theorem readPadding_replicate (size zeros : Nat) (short : size + zeros ≤ txExtraPaddingMaxCount) :
    readPadding size (List.replicate zeros 0) = some (.padding (size + zeros), []) := by
  induction zeros generalizing size with
  | zero => rw [replicate_zero, readPadding, if_pos (by omega), add_zero]
  | succ zeros ih =>
    rw [replicate_succ, readPadding, if_neg (by simp; omega),
      ih _ (by omega), add_right_comm, add_assoc]

theorem length_writeVarint_le {value bits : Nat} (small : value < 2 ^ (7 * bits))
    (pos : 0 < bits) : (writeVarint value).length ≤ bits := by
  induction bits generalizing value with
  | zero => omega
  | succ bits ih =>
    rw [writeVarint]
    split_ifs with last
    · simp
    · rcases eq_zero_or_pos bits with rfl | more
      · omega
      · have split : 2 ^ (7 * (bits + 1)) = 128 * 2 ^ (7 * bits) := by ring
        have := ih (by omega : value / 128 < 2 ^ (7 * bits)) more
        rw [length_cons]
        omega

theorem readField_writeField_append (readable : field.Readable)
    (notPadding : field.isPadding = false) (rest : Bytes) :
    readField (writeField field ++ rest) = some (field, rest) := by
  cases isTag : field.isMergeMiningTag with
  | false => exact readField_writeField readable.1 notPadding isTag rest
  | true =>
    obtain ⟨depth, root, rfl⟩ : ∃ depth root, field = .mergeMiningTag depth root := by
      cases field <;> first | exact ⟨_, _, rfl⟩ | cases isTag
    have small : depth < 2 ^ 64 := readable.2
    have short : (writeVarint depth ++ root.val).length < 2 ^ 64 := by
      have := length_writeVarint_le (small.trans (by decide : 2 ^ 64 < 2 ^ (7 * 10))) (by decide)
      rw [length_append]
      omega
    have number := readVarint_writeVarint root.val small
    have pod : readPod root.val = some (root, []) := by simpa using readPod_append root []
    simp [writeField, readField, readMergeMiningTag, readString_writeString short, number, pod]

theorem readField_writeField_nil (readable : field.Readable) :
    readField (writeField field) = some (field, []) := by
  cases isPadding : field.isPadding with
  | false => simpa using readField_writeField_append readable isPadding []
  | true =>
    obtain ⟨size, rfl⟩ : ∃ size, field = .padding size := by
      cases field <;> first | exact ⟨_, rfl⟩ | cases isPadding
    have pos : 1 ≤ size := readable.1
    have short : size ≤ txExtraPaddingMaxCount := readable.2
    rw [writeField, readField, if_pos rfl, readPadding_replicate 1 _
      (by omega), Nat.add_sub_cancel' pos]

theorem readFields_writeFields (written : Written fields)
    (ne : fields ≠ []) (enough : fields.length ≤ rounds) :
    readFields rounds (fields.flatMap writeField) = some fields := by
  induction fields generalizing rounds with
  | nil => exact absurd rfl ne
  | cons field fields ih =>
    rw [length_cons] at enough
    obtain ⟨fewer, rfl⟩ : ∃ fewer, rounds = fewer + 1 := ⟨rounds - 1, by omega⟩
    have readable := written.readable field mem_cons_self
    rw [readFields, flatMap_cons]
    by_cases single : fields = []
    · subst single
      rw [flatMap_nil, append_nil, readField_writeField_nil readable, bind_some, if_pos rfl]
    · have notPadding : field.isPadding = false := by
        refine written.paddingLast field ?_
        rw [dropLast_cons_of_ne_nil single]
        exact mem_cons_self
      have later : Written fields := by
        refine ⟨fun other mem => written.readable other (mem_cons_of_mem _ mem), ?_⟩
        intro other mem
        refine written.paddingLast other ?_
        rw [dropLast_cons_of_ne_nil single]
        exact mem_cons_of_mem _ mem
      have more : fields.flatMap writeField ≠ [] := by
        have counted := length_le_writeFields fields
        have pos := length_pos_iff.mpr single
        exact length_pos_iff.mp (by omega)
      rw [readField_writeField_append readable notPadding, bind_some,
        if_neg more, ih later single (by omega), map_some]

theorem Written.parseTxExtra_eq (written : Written fields) :
    parseTxExtra (fields.flatMap writeField) = some fields := by
  by_cases empty : fields = []
  · rw [empty]
    rfl
  · have counted := length_le_writeFields fields
    have pos := length_pos_iff.mpr empty
    have more : fields.flatMap writeField ≠ [] := length_pos_iff.mp (by omega)
    rw [parseTxExtra, if_neg more, readFields_writeFields written empty counted]

/-- Just the lists with padding only at the end and readable fields are read from some bytes, and
each is read from what it is written as. -/
theorem parseTxExtra_eq_some_iff (fields : List Field) :
    ((∃ txExtra, parseTxExtra txExtra = some fields) ↔ Written fields) ∧
      (parseTxExtra (fields.flatMap writeField) = some fields ↔ Written fields) := by
  refine ⟨⟨?_, fun written => ⟨_, written.parseTxExtra_eq⟩⟩,
    written_of_parseTxExtra, Written.parseTxExtra_eq⟩
  rintro ⟨txExtra, parsed⟩
  exact written_of_parseTxExtra parsed

/-! ## Removed fields -/

/-- On success the result is read as the fields of the other types in order; a failure changes
nothing. What can be read succeeds. -/
theorem removeFieldFromTxExtra_spec (txExtra : Bytes) (type : FieldType) :
    ((removeFieldFromTxExtra txExtra type).1 = true → ∃ fields, parseTxExtra txExtra = some fields ∧
        parseTxExtra (removeFieldFromTxExtra txExtra type).2 =
          some (fields.filter (·.type ≠ type))) ∧ ((removeFieldFromTxExtra txExtra type).1 = false →
      (removeFieldFromTxExtra txExtra type).2 = txExtra ∧ parseTxExtra txExtra = none) := by
  unfold removeFieldFromTxExtra
  by_cases empty : txExtra = []
  · subst empty
    exact ⟨fun _ => ⟨[], rfl, rfl⟩, Bool.noConfusion⟩
  · rw [if_neg empty, parseTxExtra, if_neg empty]
    cases read : readFields txExtra.length txExtra with
    | none => exact ⟨Bool.noConfusion, fun _ => ⟨rfl, rfl⟩⟩
    | some fields =>
      refine ⟨fun _ => ⟨fields, rfl, ?_⟩, Bool.noConfusion⟩
      exact ((written_of_readFields read).filter _).parseTxExtra_eq

/-! ## Sorted fields -/

theorem readFieldsPartly_of_readFields (read : readFields rounds bytes = some fields) :
    readFieldsPartly rounds bytes = (fields, [], true) := by
  induction rounds generalizing bytes fields with
  | zero => cases read
  | succ rounds ih =>
    obtain ⟨⟨field, rest⟩, readFirst, later⟩ := bind_eq_some_iff.mp read
    rw [readFieldsPartly, readFirst]
    split_ifs at later with ended
    · cases later
      exact if_pos ended
    · obtain ⟨others, readOthers, rfl⟩ := map_eq_some_iff.mp later
      exact (if_neg ended).trans (by simp [ih readOthers])

theorem storeField_eq (readable : field.Readable) : storeField field = some (writeField field) := by
  cases field with
  | padding size => exact if_neg (not_lt.mpr readable.2)
  | nonce nonce => exact if_neg (not_lt.mpr readable.1)
  | _ => rfl

theorem pickLoop_eq (type : FieldType) (written : Bytes) (enough : fields.length ≤ rounds)
    (readable : ∀ field ∈ fields, field.Readable) : pickLoop type rounds written fields =
      some (written ++ (fields.filter (·.type = type)).flatMap writeField,
        fields.filter (·.type ≠ type)) := by
  induction rounds generalizing written fields with
  | zero =>
    obtain rfl := length_eq_zero_iff.mp (Nat.le_zero.mp enough)
    simp [pickLoop]
  | succ rounds ih =>
    rw [pickLoop]
    cases found : fields.find? (·.type = type) with
    | none =>
      have others := List.find?_eq_none.mp found
      have kept : fields.filter (·.type ≠ type) = fields := by
        rw [filter_eq_self]
        intro field mem
        simpa using others field mem
      rw [filter_eq_nil_iff.mpr others, kept, flatMap_nil, append_nil]
    | some field =>
      obtain ⟨mine, before, after, rfl, others⟩ := find?_eq_some_iff_append.mp found
      have is : field.type = type := by simpa using mine
      have notMine : ∀ other ∈ before, ¬decide (other.type = type) = true := by
        intro other mem
        simpa using others other mem
      have erased : (before ++ field :: after).eraseP (·.type = type) = before ++ after := by
        simp [eraseP_append_right _ notMine, is]
      have length : (before ++ after).length ≤ rounds := by
        rw [length_append, length_cons] at enough
        rw [length_append]
        omega
      have field_readable := readable field (by simp)
      simp [storeField_eq field_readable, erased]
      rw [ih _ length fun other mem => readable other (by
        rcases mem_append.mp mem with early | late
        · exact mem_append_left _ early
        · exact mem_append_right _ (mem_cons_of_mem _ late))]
      have none_ := filter_eq_nil_iff.mpr notMine
      simp [filter_append, none_, is]

theorem foldlM_pick_eq (types : List FieldType)
    (written : Bytes) (readable : ∀ field ∈ fields, field.Readable) :
    types.foldlM (fun state type => pick type state.1 state.2) (written, fields) =
      some (written ++ (StablePicking.pickAll Field.type types fields).1.flatMap writeField,
        (StablePicking.pickAll Field.type types fields).2) := by
  induction types generalizing written fields with
  | nil => simp [StablePicking.pickAll]
  | cons type types ih =>
    have others : ∀ field ∈ fields.filter (·.type ≠ type), field.Readable :=
      fun field mem => readable field (mem_filter.mp mem).1
    rw [foldlM_cons, pick, pickLoop_eq type written le_rfl readable]
    simp only [bind_eq_bind, bind_some]
    rw [ih _ others, StablePicking.pickAll, flatMap_append, append_assoc]

theorem pickOrder_complete (type : FieldType) : type ∈ pickOrder := by
  cases type <;> decide

def sortedFields (fields : List Field) : List Field :=
  (StablePicking.pickAll Field.type pickOrder fields).1

theorem sortTxExtra_eq (parsed : parseTxExtra txExtra = some fields) (allowPartial : Bool) :
    sortTxExtra txExtra allowPartial = some ((sortedFields fields).flatMap writeField) := by
  have written := written_of_parseTxExtra parsed
  rw [parseTxExtra] at parsed
  rw [sortTxExtra]
  split_ifs at parsed with empty
  · cases parsed
    rw [if_pos empty]
    rfl
  · have rest := StablePicking.pickAll_snd_eq_nil Field.type
      fun field (_ : field ∈ fields) => pickOrder_complete _
    simp only [if_neg empty, readFieldsPartly_of_readFields parsed,
      foldlM_pick_eq pickOrder [] written.readable, bind_some, rest]
    simp [sortedFields]

theorem Written.sortedFields (written : Written fields) : Written (sortedFields fields) := by
  have permuted : (TxExtra.sortedFields fields).Perm fields :=
    StablePicking.pickAll_fst_perm Field.type fun field _ => pickOrder_complete _
  refine ⟨fun field mem => written.readable field (permuted.mem_iff.mp mem), ?_⟩
  have few : (fields.filter (·.type = .padding)).length ≤ 1 := by
    rcases eq_nil_or_concat' fields with rfl | ⟨front, last, rfl⟩
    · simp
    · have plain := written.paddingLast
      rw [dropLast_concat] at plain
      have none_ : front.filter (·.type = .padding) = [] := by
        rw [filter_eq_nil_iff]
        intro field mem
        have notPadding := plain field mem
        cases field <;> simp_all [Field.isPadding, Field.type]
      rw [filter_append, none_]
      exact length_filter_le _ _
  have split : TxExtra.sortedFields fields =
      pickOrder.dropLast.flatMap (fun type => fields.filter (·.type = type)) ++
        fields.filter (·.type = .padding) := by
    rw [TxExtra.sortedFields, StablePicking.pickAll_fst _ (by decide)]
    simp [pickOrder]
  have front : ∀ field ∈ pickOrder.dropLast.flatMap
      (fun type => fields.filter (·.type = type)), field.isPadding = false := by
    intro field mem
    obtain ⟨type, ofType, lt⟩ := mem_flatMap.mp mem
    have is : field.type = type := by simpa using (mem_filter.mp lt).2
    have notPadding : type ≠ .padding := by
      rintro rfl
      exact absurd ofType (by decide)
    cases field <;> simp_all [Field.isPadding, Field.type]
  rw [split]
  intro field mem
  generalize fields.filter (·.type = .padding) = padding at few mem
  match padding, few with
  | [], _ =>
    rw [append_nil] at mem
    exact front field (mem_of_mem_dropLast mem)
  | [last], _ =>
    rw [dropLast_concat] at mem
    exact front field mem

/-- What can be read is sorted: the result is read as the fields type by type in the order of
`pickOrder`, a permutation that keeps the order within each type, and sorting again changes
nothing. -/
theorem sortTxExtra_spec {txExtra : Bytes} {fields : List Field}
    (parsed : parseTxExtra txExtra = some fields) (allowPartial : Bool) :
    ∃ sorted sortedFields, sortTxExtra txExtra allowPartial = some sorted ∧
      parseTxExtra sorted = some sortedFields ∧
      sortedFields = pickOrder.flatMap (fun type => fields.filter (·.type = type)) ∧
      sortedFields.Perm fields ∧
      (∀ type : FieldType, sortedFields.filter (·.type = type) = fields.filter (·.type = type)) ∧
      sortTxExtra sorted allowPartial = some sorted := by
  have complete : ∀ field ∈ fields, field.type ∈ pickOrder :=
    fun field _ => pickOrder_complete _
  have reread := (written_of_parseTxExtra parsed).sortedFields.parseTxExtra_eq
  refine ⟨_, sortedFields fields, sortTxExtra_eq parsed allowPartial, reread,
    StablePicking.pickAll_fst Field.type (by decide) fields,
    StablePicking.pickAll_fst_perm Field.type complete,
    StablePicking.filter_pickAll Field.type complete, ?_⟩
  rw [sortTxExtra_eq reread, sortedFields, sortedFields,
    StablePicking.pickAll_pickAll Field.type complete (by decide)]

theorem minergateThenNonce_sortTxExtra :
    ∃ sorted sortedFields, sortTxExtra [0xde, 1, 9, 2, 1, 7] false = some sorted ∧
      parseTxExtra sorted = some sortedFields ∧
      sortedFields = pickOrder.flatMap (fun type =>
        [Field.mysteriousMinergate [9], .nonce [7]].filter (·.type = type)) ∧
      sortedFields.Perm [.mysteriousMinergate [9], .nonce [7]] ∧
      (∀ type : FieldType, sortedFields.filter (·.type = type) =
        [Field.mysteriousMinergate [9], .nonce [7]].filter (·.type = type)) ∧
      sortTxExtra sorted false = some sorted :=
  sortTxExtra_spec (by decide : parseTxExtra [0xde, 1, 9, 2, 1, 7] =
    some [.mysteriousMinergate [9], .nonce [7]]) false

end TxExtra

end LodeChain

import LodeChain.OrderedTable
import LodeChain.Transaction

/-!
# Rounds of the multisig key exchange

In each round of the key exchange every signer recommends public keys to the others.
-/

namespace LodeChain

open WrappedArithmetic List OrderedTable KeyedSets

structure KexMsg where
  round : Nat
  signingPubkey : PublicKey
  msgPubkeys : List PublicKey
  round_pos : 0 < round

def KexMsg.recommendations (round : Nat) (excludePubkeys : List PublicKey)
    (msg : KexMsg) : List (PublicKey × PublicKey) :=
  if round = 1 then [(msg.signingPubkey, msg.signingPubkey)]
  else
    (msg.msgPubkeys.filter fun pubkey => !excludePubkeys.contains pubkey).map
      fun pubkey => (pubkey, msg.signingPubkey)

/-- `multisig_kex_msgs_sanitize_pubkeys`: the round and the signers that recommend each key. -/
def multisigKexMsgsSanitizePubkeys (expandedMsgs : List KexMsg) (excludePubkeys : List PublicKey) :
    Option (Nat × KeyedSets PublicKey PublicKey) :=
  match expandedMsgs with
  | [] => none
  | first :: _ =>
    if expandedMsgs.all fun msg => msg.round == first.round then
      some (first.round, addAll .empty
        (expandedMsgs.flatMap (KexMsg.recommendations first.round excludePubkeys)))
    else none

def removeKeyFromMappedSets (keyToRemove : PublicKey)
    (keyset : KeyedSets PublicKey PublicKey) : KeyedSets PublicKey PublicKey :=
  removeValue keyset keyToRemove

def originPubkeysMap (pubkeyOriginsMap : KeyedSets PublicKey PublicKey) :
    KeyedSets PublicKey PublicKey :=
  addAll .empty (pubkeyOriginsMap.rows.flatMap fun row =>
    (values row.2).map fun origin => (origin, row.1))

/-- `n_choose_k_f`: `boost::math::binomial_coefficient` is relied on to be exact after rounding up
to the largest signed 32-bit number; what exceeds it counts as zero. The number of signers is cast
to 32 bits, which the round has already. -/
def nChooseK (size k : Nat) : Nat :=
  let n := size % 2 ^ 32
  if n < k then 0
  else if 2 ^ 31 - 1 < n.choose k then 0
  else n.choose k

def passesRoundTests (round : Nat) (signers excludePubkeys : List PublicKey)
    (incompleteSignerSet : Bool) (pubkeyOriginsMap : KeyedSets PublicKey PublicKey) : Bool :=
  let numRecommendationsPerPubkeyRequired := if incompleteSignerSet then 1 else round
  let originPubkeys := originPubkeysMap pubkeyOriginsMap
  let numSignersRequired := if incompleteSignerSet then
      subMod 64 (subMod 64 signers.length 1) (round - 1)
    else subMod 64 signers.length 1
  let expectedRecommendationsOthers := nChooseK (subMod 64 signers.length 2) (round - 1)
  let expectedRecommendationsSelf := nChooseK (subMod 64 signers.length 1) (round - 1)
  pubkeyOriginsMap.rows.all (fun row =>
      decide (numRecommendationsPerPubkeyRequired ≤ row.2.card)) &&
    decide (numSignersRequired ≤ originPubkeys.size) &&
    decide (0 < expectedRecommendationsSelf ∧ 0 < expectedRecommendationsOthers) &&
    decide (excludePubkeys.length = expectedRecommendationsSelf) &&
    originPubkeys.rows.all fun row => decide (row.2.card = expectedRecommendationsOthers) &&
        signers.contains row.1

/-- `evaluate_multisig_kex_round_msgs`; `none` where the code throws. -/
def evaluateMultisigKexRoundMsgs (basePubkey : PublicKey) (expectedRound : Nat)
    (signers : List PublicKey) (expandedMsgs : List KexMsg)
    (excludePubkeys : List PublicKey) (incompleteSignerSet : Bool) :
    Option (KeyedSets PublicKey PublicKey) :=
  if ¬ excludePubkeys.Nodup then none
  else
    match multisigKexMsgsSanitizePubkeys expandedMsgs excludePubkeys with
    | none => none
    | some (round, sanitized) =>
      let pubkeyOriginsMap := removeKeyFromMappedSets basePubkey sanitized
      if round = expectedRound ∧ passesRoundTests round signers excludePubkeys
          incompleteSignerSet pubkeyOriginsMap then
        some pubkeyOriginsMap
      else none

def recommenders (basePubkey : PublicKey) (round : Nat)
    (expandedMsgs : List KexMsg) (excludePubkeys : List PublicKey)
    (pubkey : PublicKey) : Finset PublicKey :=
  (((expandedMsgs.flatMap (KexMsg.recommendations round excludePubkeys)).filter
    fun pair => decide (pair.1 = pubkey ∧ pair.2 ≠ basePubkey)).map Prod.snd).toFinset

/-- Every key is recommended by as many other signers as the round has, one key per group of them.
-/
def RecommendedByRound (basePubkey : PublicKey) (round : Nat)
    (signers : List PublicKey) (keyset : KeyedSets PublicKey PublicKey) : Prop :=
  (∀ pubkey origins, keyset.find? pubkey = some origins →
    origins ⊆ signers.toFinset.erase basePubkey ∧ origins.card = round) ∧
  keyset.size = (signers.length - 1).choose round

section Rounds

variable {basePubkey : PublicKey} {expectedRound : Nat}
  {signers excludePubkeys : List PublicKey} {expandedMsgs : List KexMsg}
  {keyset : KeyedSets PublicKey PublicKey}

def Recommends (basePubkey : PublicKey) (round : Nat)
    (expandedMsgs : List KexMsg) (excludePubkeys : List PublicKey)
    (pubkey origin : PublicKey) : Prop :=
  origin ≠ basePubkey ∧ (pubkey, origin) ∈
    expandedMsgs.flatMap (KexMsg.recommendations round excludePubkeys)

theorem mem_recommenders {round : Nat} {pubkey origin : PublicKey} :
    origin ∈ recommenders basePubkey round expandedMsgs excludePubkeys pubkey ↔
      Recommends basePubkey round expandedMsgs excludePubkeys pubkey origin := by
  simp only [recommenders, mem_toFinset, mem_map, mem_filter,
    decide_eq_true_eq, Prod.exists, Recommends]
  constructor
  · rintro ⟨_, _, ⟨mem, rfl, other⟩, rfl⟩
    exact ⟨other, mem⟩
  · rintro ⟨other, mem⟩
    exact ⟨pubkey, origin, ⟨mem, rfl, other⟩, rfl⟩

theorem evaluate_spec {incompleteSignerSet : Bool}
    (evaluated : evaluateMultisigKexRoundMsgs basePubkey expectedRound signers
      expandedMsgs excludePubkeys incompleteSignerSet = some keyset) :
    0 < expectedRound ∧ KeyedSets.Records keyset (Recommends basePubkey expectedRound expandedMsgs
        excludePubkeys) ∧ passesRoundTests expectedRound signers excludePubkeys incompleteSignerSet
        keyset = true := by
  unfold evaluateMultisigKexRoundMsgs at evaluated
  split at evaluated
  · cases evaluated
  · split at evaluated
    · cases evaluated
    · rename_i round sanitized sanitizes
      rw [Option.ite_none_right_eq_some] at evaluated
      obtain ⟨⟨rfl, passes⟩, ⟨⟩⟩ := evaluated
      cases expandedMsgs with
      | nil => cases sanitizes
      | cons first rest =>
        rw [multisigKexMsgsSanitizePubkeys, Option.ite_none_right_eq_some] at sanitizes
        obtain ⟨-, ⟨⟩⟩ := sanitizes
        exact ⟨first.round_pos, records_removeValue (records_addAll_empty _) basePubkey, passes⟩

theorem records_originPubkeysMap {related : PublicKey → PublicKey → Prop}
    (records : KeyedSets.Records keyset related) :
    KeyedSets.Records (originPubkeysMap keyset) fun origin pubkey => related pubkey origin := by
  refine (records_addAll_empty _).congr ?_
  intro origin pubkey
  simp only [mem_flatMap, mem_map, mem_values, Prod.mk.injEq,
    Prod.exists, ← find?_eq_some_iff]
  constructor
  · rintro ⟨_, origins, found, _, mem, rfl, rfl⟩
    exact ((records.find?_eq_some_iff.mp found).2 _).mp mem
  · intro isRelated
    have mem := (records.mem_iff pubkey origin).mpr isRelated
    exact ⟨pubkey, members keyset pubkey,
      records.find?_eq_some_iff.mpr ⟨⟨origin, mem⟩, records.mem_iff pubkey⟩,
      origin, mem, rfl, rfl⟩

theorem nChooseK_of_pos {n k : Nat} (small : n < 2 ^ 32) (pos : 0 < nChooseK n k) :
    nChooseK n k = n.choose k := by
  simp only [nChooseK, Nat.mod_eq_of_lt small] at pos ⊢
  split_ifs at pos ⊢
  · exact absurd pos (lt_irrefl 0)
  · exact absurd pos (lt_irrefl 0)
  · rfl

theorem passesRoundTests_spec {round : Nat} (several : 2 ≤ signers.length)
    (few : signers.length < 2 ^ 32)
    (passes : passesRoundTests round signers excludePubkeys false keyset = true) :
    (∀ pubkey origins, keyset.find? pubkey = some origins → round ≤ origins.card) ∧
    signers.length - 1 ≤ (originPubkeysMap keyset).size ∧
    ∀ origin pubkeys, (originPubkeysMap keyset).find? origin = some pubkeys →
      pubkeys.card = (signers.length - 2).choose (round - 1) ∧ origin ∈ signers := by
  have vector : signers.length < 2 ^ 64 := few.trans (by decide)
  have one : subMod 64 signers.length 1 = signers.length - 1 := subMod_of_le vector (by omega)
  have two := subMod_of_le vector several
  simp only [passesRoundTests, one, two, Bool.false_eq_true, if_false,
    Bool.and_eq_true, all_eq_true, decide_eq_true_eq, Prod.forall,
    contains_iff_mem, ← find?_eq_some_iff] at passes
  obtain ⟨⟨⟨⟨enough, complete⟩, -, pos⟩, -⟩, counted⟩ := passes
  rw [nChooseK_of_pos (by omega) pos] at counted
  exact ⟨enough, complete, counted⟩

theorem members_eq_recommenders {round : Nat}
    (records : KeyedSets.Records keyset (Recommends basePubkey round expandedMsgs excludePubkeys))
    (pubkey : PublicKey) : members keyset pubkey =
      recommenders basePubkey round expandedMsgs excludePubkeys pubkey := by
  ext origin
  rw [records.mem_iff, mem_recommenders]

theorem origins_of_accepted (distinct : signers.Nodup) (localSigner : basePubkey ∈ signers)
    (several : 2 ≤ signers.length) (few : signers.length < 2 ^ 32)
    (evaluated : evaluateMultisigKexRoundMsgs basePubkey expectedRound signers
      expandedMsgs excludePubkeys false = some keyset) :
    keys (originPubkeysMap keyset) = signers.toFinset.erase basePubkey ∧
      ∑ pubkey ∈ keys keyset, (members keyset pubkey).card =
        (signers.length - 1).choose expectedRound * expectedRound := by
  obtain ⟨roundPos, records, passes⟩ := evaluate_spec evaluated
  have converse := records_originPubkeysMap records
  obtain ⟨-, complete, counted⟩ := passesRoundTests_spec several few passes
  have others : (signers.toFinset.erase basePubkey).card = signers.length - 1 := by
    rw [Finset.card_erase_of_mem (mem_toFinset.mpr localSigner), toFinset_card_of_nodup distinct]
  have origins : keys (originPubkeysMap keyset) = signers.toFinset.erase basePubkey := by
    refine Finset.eq_of_subset_of_card_le ?_ ?_
    · intro origin isKey
      obtain ⟨pubkeys, found⟩ := mem_keys_iff_found.mp isKey
      obtain ⟨pubkey, recommends⟩ := converse.mem_keys.mp isKey
      exact Finset.mem_erase.mpr ⟨recommends.1, mem_toFinset.mpr (counted origin pubkeys found).2⟩
    · rw [others, card_keys]
      exact complete
  have each : ∀ origin ∈ keys (originPubkeysMap keyset),
      (members (originPubkeysMap keyset) origin).card =
        (signers.length - 2).choose (expectedRound - 1) := by
    intro origin isKey
    obtain ⟨pubkeys, found⟩ := mem_keys_iff_found.mp isKey
    rw [members, found]
    exact (counted origin pubkeys found).1
  refine ⟨origins, ?_⟩
  obtain ⟨size, sizeEq⟩ := Nat.exists_eq_add_of_le several
  obtain ⟨round, rfl⟩ := Nat.exists_eq_add_of_le' roundPos
  calc ∑ pubkey ∈ keys keyset, (members keyset pubkey).card
      = ∑ origin ∈ keys (originPubkeysMap keyset),
          (members (originPubkeysMap keyset) origin).card :=
        records.sum_card_eq converse
    _ = (signers.length - 1) * (signers.length - 2).choose round := by
        rw [Finset.sum_const_nat each, origins, others, Nat.add_sub_cancel]
    _ = (signers.length - 1).choose (round + 1) * (round + 1) := by
        rw [sizeEq, Nat.add_sub_cancel_left, (by omega : 2 + size - 1 = size + 1)]
        exact Nat.add_one_mul_choose_eq size round

/-- An accepted round is as it should be exactly when no key has more other recommenders than the
round asks for. -/
theorem recommendedByRound_iff (distinct : signers.Nodup) (localSigner : basePubkey ∈ signers)
    (several : 2 ≤ signers.length) (few : signers.length < 2 ^ 32)
    (evaluated : evaluateMultisigKexRoundMsgs basePubkey expectedRound signers
      expandedMsgs excludePubkeys false = some keyset) :
    RecommendedByRound basePubkey expectedRound signers keyset ↔
      ∀ pubkey, (recommenders basePubkey expectedRound expandedMsgs
        excludePubkeys pubkey).card ≤ expectedRound := by
  obtain ⟨roundPos, records, passes⟩ := evaluate_spec evaluated
  obtain ⟨enough, -, -⟩ := passesRoundTests_spec several few passes
  obtain ⟨origins, total⟩ := origins_of_accepted distinct localSigner several few evaluated
  have converse := records_originPubkeysMap records
  constructor
  · rintro ⟨exactly, -⟩ pubkey
    rw [← members_eq_recommenders records, members]
    cases found : keyset.find? pubkey with
    | none => simp
    | some recommending => exact (exactly pubkey recommending found).2.le
  · intro bounded
    have exactly : ∀ pubkey ∈ keys keyset,
        (members keyset pubkey).card = expectedRound := by
      intro pubkey isKey
      obtain ⟨recommending, found⟩ := mem_keys_iff_found.mp isKey
      have least := enough pubkey recommending found
      have most := bounded pubkey
      rw [← members_eq_recommenders records] at most
      rw [members, found, Option.getD_some] at most ⊢
      omega
    refine ⟨?_, ?_⟩
    · intro pubkey recommending found
      constructor
      · intro origin member
        rw [← origins, converse.mem_keys]
        exact ⟨pubkey, ((records.find?_eq_some_iff.mp found).2 origin).mp member⟩
      · have count := exactly pubkey (mem_keys_iff_found.mpr ⟨recommending, found⟩)
        rwa [members, found, Option.getD_some] at count
    · rw [Finset.sum_const_nat exactly, card_keys] at total
      exact Nat.eq_of_mul_eq_mul_right roundPos total

end Rounds

def secondRoundMsg (signer : PublicKey) (msgPubkeys : List PublicKey) : KexMsg :=
  ⟨2, signer, msgPubkeys, by decide⟩

theorem pairwiseKeys_recommendedByRound : ∃ keyset, evaluateMultisigKexRoundMsgs 1 2 [1, 2, 3, 4]
        [secondRoundMsg 2 [23, 24], secondRoundMsg 3 [23, 34],
          secondRoundMsg 4 [24, 34]] [12, 13, 14] false = some keyset ∧
      RecommendedByRound 1 2 [1, 2, 3, 4] keyset := by
  obtain ⟨keyset, evaluated⟩ := Option.isSome_iff_exists.mp
    (by decide +kernel : (evaluateMultisigKexRoundMsgs 1 2 [1, 2, 3, 4]
      [secondRoundMsg 2 [23, 24], secondRoundMsg 3 [23, 34],
        secondRoundMsg 4 [24, 34]] [12, 13, 14] false).isSome)
  refine ⟨keyset, evaluated, (recommendedByRound_iff (by decide) (by decide)
    (by decide) (by decide) evaluated).mpr ?_⟩
  intro pubkey
  by_cases first : pubkey = 23
  · subst first
    decide
  by_cases second : pubkey = 24
  · subst second
    decide
  by_cases third : pubkey = 34
  · subst third
    decide
  have nobody : recommenders 1 2 [secondRoundMsg 2 [23, 24],
      secondRoundMsg 3 [23, 34], secondRoundMsg 4 [24, 34]] [12, 13, 14] pubkey = ∅ := by
    simp [recommenders, KexMsg.recommendations, secondRoundMsg, Ne.symm first,
      Ne.symm second, Ne.symm third]
  simp [nobody]

/-- The three other signers all recommend the same two keys, one signer too many. -/
theorem sharedKeys_not_recommendedByRound : ∃ keyset, evaluateMultisigKexRoundMsgs 1 2 [1, 2, 3, 4]
        [secondRoundMsg 2 [23, 24], secondRoundMsg 3 [23, 24],
          secondRoundMsg 4 [23, 24]] [12, 13, 14] false = some keyset ∧
      keyset.size = 2 ∧ ¬ RecommendedByRound 1 2 [1, 2, 3, 4] keyset := by
  obtain ⟨keyset, evaluated, size⟩ := Option.map_eq_some_iff.mp
    (by decide +kernel : (evaluateMultisigKexRoundMsgs 1 2 [1, 2, 3, 4]
      [secondRoundMsg 2 [23, 24], secondRoundMsg 3 [23, 24],
        secondRoundMsg 4 [23, 24]] [12, 13, 14] false).map size = some 2)
  refine ⟨keyset, evaluated, size, ?_⟩
  rintro ⟨-, three⟩
  rw [size] at three
  exact absurd three (by decide)

end LodeChain

import LodeChain.SoundChain

/-!
# Generated coins

The main path counts what a miner claims beyond the fees, the alternative path all of the claim. In
every reachable state the stored coins follow from the claims and stay within the schedule.
-/

namespace LodeChain

open WrappedArithmetic List Blockchain

def totalOutputs (tx : Transaction) : Nat :=
  (tx.vout.map fun out => out.amount.toNat).sum

def BlockEntry.totalFee (entry : BlockEntry) : Nat :=
  (entry.txs.map getTxFee).sum

variable {money : Nat} {env : Env} {earlier : List BlockEntry} {entry : BlockEntry}

private theorem checkOutsOverflowFrom_sum {outs : List TxOut}
    (bounded : money < 2 ^ 64) (checked : checkOutsOverflowFrom money outs) :
    money + (outs.map fun out => out.amount.toNat).sum < 2 ^ 64 := by
  induction outs generalizing money with
  | nil => simpa using bounded
  | cons out rest ih =>
    rw [checkOutsOverflowFrom] at checked
    split at checked
    · simp at checked
    · rename_i ordered
      have fits : out.amount.toNat + money < 2 ^ 64 :=
        (le_addMod_iff bounded out.amount.toNat_lt).mp (not_lt.mp ordered)
      rw [addMod_of_lt (by omega)] at checked
      have later := ih (by omega) checked
      rw [map_cons, sum_cons]
      omega

theorem getOutsMoneyAmount_lt (tx : Transaction) : getOutsMoneyAmount tx < 2 ^ 64 :=
  sumMod_lt _

theorem getOutsMoneyAmount_eq {tx : Transaction} (checked : checkOutsOverflow tx = true) :
    getOutsMoneyAmount tx = totalOutputs tx := by
  have fits := checkOutsOverflowFrom_sum (by decide) checked
  rw [zero_add] at fits
  exact sumMod_of_lt fits

variable {version base fee coins amount : Nat} {reward : MinerReward}

theorem settleReward_spec (baseBound : base < 2 ^ 64) (feeBound : fee < 2 ^ 64)
    (settled : settleReward version base fee money = some reward) :
    reward.baseReward ≤ base ∧ reward.baseReward = subMod 64 money fee := by
  unfold settleReward at settled
  dsimp only at settled
  split at settled
  · simp at settled
  · split at settled
    · split at settled
      · simp at settled
      · rename_i exact_
        rw [Option.some.injEq] at settled
        subst settled
        refine ⟨le_rfl, ?_⟩
        rw [← not_not.mp exact_]
        exact (subMod_addMod baseBound feeBound).symm
    · split at settled
      · rename_i bounded
        rw [Option.some.injEq] at settled
        subst settled
        exact ⟨bounded, rfl⟩
      · simp at settled

theorem fee_le_of_settleReward
    (fits : base + fee < 2 ^ 64) (settled : settleReward version base fee money = some reward) :
    fee ≤ money ∧ money < 2 ^ 64 := by
  obtain ⟨bounded, claimed⟩ := settleReward_spec (by omega) (by omega) settled
  have most : money ≤ base + fee := by
    unfold settleReward at settled
    rw [addMod_of_lt fits] at settled
    by_contra more
    rw [if_pos (by omega)] at settled
    simp at settled
  refine ⟨?_, by omega⟩
  by_contra short
  rw [claimed, subMod_of_lt (by omega) (by omega)] at bounded
  omega

theorem addGeneratedCoins_le {coins amount : Nat} (capped : coins ≤ moneySupply) :
    addGeneratedCoins coins amount ≤ moneySupply ∧
      addGeneratedCoins coins amount ≤ coins + amount := by
  have room : subMod 64 moneySupply coins = moneySupply - coins := subMod_of_le (by decide) capped
  unfold addGeneratedCoins
  split
  · have fits : coins + amount < 2 ^ 64 := by
      simp [moneySupply] at *
      omega
    rw [addMod_of_lt fits]
    omega
  · omega

theorem addGeneratedCoins_eq (room : coins + amount ≤ moneySupply) :
    addGeneratedCoins coins amount = coins + amount := by
  have exact_ : subMod 64 moneySupply coins = moneySupply - coins :=
    subMod_of_le (by decide) (by omega)
  unfold addGeneratedCoins
  split
  · have fits : coins + amount < 2 ^ 64 := by
      simp [moneySupply] at *
      omega
    exact addMod_of_lt fits
  · omega

theorem addGeneratedCoins_inj {other : Nat} (room : coins + amount < moneySupply) :
    addGeneratedCoins coins amount =
      addGeneratedCoins coins other ↔ amount = other := by
  rw [addGeneratedCoins_eq (by omega)]
  rcases lt_or_ge moneySupply (coins + other) with capped | fits
  · have left : moneySupply - coins ≤ other := by omega
    unfold addGeneratedCoins
    rw [subMod_of_le (by decide) (by omega), if_neg (by omega)]
    omega
  · rw [addGeneratedCoins_eq fits]
    omega

@[simp]
theorem lastGeneratedCoins_append_singleton (entries : List BlockEntry) (entry : BlockEntry) :
    lastGeneratedCoins (entries ++ [entry]) = entry.alreadyGeneratedCoins := by
  simp [lastGeneratedCoins]

theorem SoundEntry.coins_settled (sound : SoundEntry env earlier entry) :
    entry.alreadyGeneratedCoins = addGeneratedCoins (lastGeneratedCoins earlier)
        (subMod 64 (getOutsMoneyAmount entry.bl.minerTx) (sumMod 64 (entry.txs.map getTxFee))) ∧
      subMod 64 (getOutsMoneyAmount entry.bl.minerTx) (sumMod 64 (entry.txs.map getTxFee)) ≤
          getBaseReward (lastGeneratedCoins earlier) earlier.length := by
  obtain ⟨version, base, reward, baseLe, settled, coins⟩ := sound.reward
  obtain ⟨claimed, exact_⟩ := settleReward_spec
    (lt_of_le_of_lt baseLe (getBaseReward_lt _ _)) (sumMod_lt _) settled
  rw [← exact_]
  exact ⟨coins, claimed.trans baseLe⟩

theorem SoundEntry.coins_le (sound : SoundEntry env earlier entry)
    (capped : lastGeneratedCoins earlier ≤ moneySupply) :
    entry.alreadyGeneratedCoins ≤ moneySupply ∧
      entry.alreadyGeneratedCoins ≤ lastGeneratedCoins earlier +
        getBaseReward (lastGeneratedCoins earlier) earlier.length := by
  obtain ⟨coins, claimed⟩ := sound.coins_settled
  have bounds := @addGeneratedCoins_le _ (subMod 64 (getOutsMoneyAmount entry.bl.minerTx)
      (sumMod 64 (entry.txs.map getTxFee))) capped
  omega

theorem SoundEntry.coins_eq (sound : SoundEntry env earlier entry)
    (capped : lastGeneratedCoins earlier ≤ moneySupply)
    (fits : getBaseReward (lastGeneratedCoins earlier) earlier.length + entry.totalFee < 2 ^ 64) :
    entry.totalFee ≤ totalOutputs entry.bl.minerTx ∧
      entry.alreadyGeneratedCoins = lastGeneratedCoins earlier +
        (totalOutputs entry.bl.minerTx - entry.totalFee) := by
  obtain ⟨version, base, reward, baseLe, settled, coins⟩ := sound.reward
  have fees : sumMod 64 (entry.txs.map getTxFee) = entry.totalFee :=
    sumMod_of_lt (lt_of_le_of_lt (Nat.le_add_left _ _) fits)
  rw [fees, getOutsMoneyAmount_eq sound.outsFit] at settled
  obtain ⟨covered, moneyBound⟩ := fee_le_of_settleReward (by omega) settled
  obtain ⟨claimed, exact_⟩ := settleReward_spec (by omega) (by omega) settled
  rw [subMod_of_le moneyBound covered] at exact_
  have room := add_getBaseReward_le_moneySupply earlier.length capped
  refine ⟨covered, ?_⟩
  rw [coins, addGeneratedCoins_eq (by omega), exact_]

section Entries

variable {entries : List BlockEntry}

section

variable (sound : ListFacts.EachAfter (SoundEntry env) entries)

include sound

theorem lastGeneratedCoins_le_moneySupply : lastGeneratedCoins entries ≤ moneySupply := by
  induction entries using reverseRecOn with
  | nil => exact Nat.zero_le _
  | append_singleton earlier entry ih =>
    rw [lastGeneratedCoins_append_singleton]
    exact ((sound _ _ [] rfl).coins_le (ih sound.of_append)).1

theorem lastGeneratedCoins_le_scheduledEmission :
    lastGeneratedCoins entries ≤ scheduledEmission (entries.length - 1) := by
  induction entries using reverseRecOn with
  | nil => exact Nat.zero_le _
  | append_singleton earlier entry ih =>
    have bounded := ((sound _ _ [] rfl).coins_le
      (lastGeneratedCoins_le_moneySupply sound.of_append)).2
    have before := ih sound.of_append
    have scheduled := getBaseReward_le_scheduledReward (lastGeneratedCoins earlier) earlier.length
    have era := scheduledReward_le_eraReward earlier.length
    rw [lastGeneratedCoins_append_singleton, length_append, length_singleton, Nat.add_sub_cancel]
    rcases eq_zero_or_pos earlier.length with empty | pos
    · rw [length_eq_zero_iff.mp empty] at bounded
      exact bounded.trans (Nat.zero_le _)
    · have emission := scheduledEmission_succ (earlier.length - 1)
      rw [Nat.sub_add_cancel pos] at emission
      omega

theorem lastGeneratedCoins_add_scheduledReward_lt :
    lastGeneratedCoins entries + scheduledReward entries.length < moneySupply := by
  have bounded := lastGeneratedCoins_le_scheduledEmission sound
  have era := scheduledReward_le_eraReward entries.length
  rcases eq_zero_or_pos entries.length with empty | pos
  · rw [length_eq_zero_iff.mp empty]
    decide
  · have emission := scheduledEmission_succ (entries.length - 1)
    rw [Nat.sub_add_cancel pos] at emission
    have next := scheduledEmission_lt_moneySupply entries.length
    omega

end

def claimedCoins (entries : List BlockEntry) : Int :=
  (entries.map fun entry => (totalOutputs entry.bl.minerTx : Int) - entry.totalFee).sum

theorem lastGeneratedCoins_eq_claimedCoins (sound : ListFacts.EachAfter (SoundEntry env) entries)
    (fits : ListFacts.EachAfter (fun earlier entry =>
      getBaseReward (lastGeneratedCoins earlier) earlier.length +
        entry.totalFee < 2 ^ 64) entries) :
    (lastGeneratedCoins entries : Int) = claimedCoins entries := by
  induction entries using reverseRecOn with
  | nil => rfl
  | append_singleton earlier entry ih =>
    have before := ih sound.of_append fits.of_append
    obtain ⟨covered, coins⟩ := (sound _ _ [] rfl).coins_eq
      (lastGeneratedCoins_le_moneySupply sound.of_append) (fits _ _ [] rfl)
    unfold claimedCoins at before ⊢
    rw [lastGeneratedCoins_append_singleton, map_append, sum_append]
    simp
    omega

end Entries

namespace Blockchain

variable {traffic : Traffic} {chain : Blockchain}

theorem alreadyGeneratedCoinsAt_eq (db : BlockchainDB) {height : Nat} (below : height < db.height) :
    db.alreadyGeneratedCoinsAt height = lastGeneratedCoins (db.blocks.take (height + 1)) := by
  unfold BlockchainDB.alreadyGeneratedCoinsAt lastGeneratedCoins
  rw [getD_eq_getElem?_getD, getElem?_map, getLast?_take, Nat.add_sub_cancel]
  rw [getElem?_eq_getElem below]
  rfl

/-- In every reachable state the stored coins are what miners claimed beyond the fees, under the
money supply, if base reward and fees fit 64 bits. -/
theorem Reachable.alreadyGeneratedCoins_eq_claimedCoins
    (reachable : Reachable env traffic chain) {height : Nat} (below : height < chain.db.height)
    (fits : ListFacts.EachAfter (fun earlier entry =>
      getBaseReward (lastGeneratedCoins earlier) earlier.length +
        entry.totalFee < 2 ^ 64) (chain.db.blocks.take (height + 1))) :
    (chain.db.alreadyGeneratedCoinsAt height : Int) =
        claimedCoins (chain.db.blocks.take (height + 1)) ∧
      chain.db.alreadyGeneratedCoinsAt height ≤ moneySupply := by
  have sound := reachable.soundChain.entries
  rw [alreadyGeneratedCoinsAt_eq _ below]
  exact ⟨lastGeneratedCoins_eq_claimedCoins (sound.take _) fits,
    lastGeneratedCoins_le_moneySupply (sound.take _)⟩

/-- A block is named by its timestamp and a transaction by its inputs and outputs. -/
def uncheckedEnv : Env :=
  { Env.accepting (fun block => block.timestamp + 1)
      (fun tx => 2 ^ tx.vin.length * 3 ^ tx.vout.length) with
    checkTxInputs := fun _ _ _ => none }

def claimingBlock (height : Nat) (prevId : Hash) (claimed : UInt64)
    (txHashes : List Hash) : Block where
  majorVersion := 1
  minorVersion := 1
  timestamp := 120 * height
  prevId := prevId
  nonce := 0
  minerTx := { Transaction.setNull with
      unlockTime := height + 60
      vin := [.gen height]
      vout := replicate height ⟨claimed, .toKey 5⟩ }
  txHashes := txHashes

def claimingChain : Blockchain :=
  ((empty.handleBlockToMainChain uncheckedEnv 0
    (claimingBlock 0 0 0 []) .init).chain.handleBlockToMainChain uncheckedEnv
      120 (claimingBlock 1 1 10000000000 []) .init).chain

theorem claimingChain_reachable : Reachable uncheckedEnv .any claimingChain :=
  ⟨empty, ⟨rfl, rfl, rfl⟩,
    (Relation.ReflTransGen.single (.mainBlock _ _ _ _ rfl trivial)).tail
      (.mainBlock _ _ _ _ rfl trivial)⟩

theorem claimingChain_coins :
    claimingChain.db.height = 2 ∧ (claimingChain.db.alreadyGeneratedCoinsAt 1 : Int) =
        claimedCoins (claimingChain.db.blocks.take 2) ∧
      claimingChain.db.alreadyGeneratedCoinsAt 1 ≤ moneySupply :=
  ⟨by decide, claimingChain_reachable.alreadyGeneratedCoins_eq_claimedCoins
    (by decide) (.of_forall_fin (by decide))⟩

/-- No reachable chain holds a block, a transaction or a key image twice, or lists a transaction,
the miner's apart, that is in the pool. -/
theorem Reachable.storedOnce_and_unpooled (reachable : Reachable env traffic chain) :
    StoredOnce env chain.db ∧ ∀ entry ∈ chain.db.blocks, ∀ txid ∈ entry.bl.txHashes,
      chain.txPool.txpool.lookup txid = none := by
  constructor
  · apply reachable.induct (fun started => ?_) ChainStep.storedOnce
    constructor <;> simp [BlockchainDB.blockHashes, started.blocks]
  · intro entry mem txid listed
    by_contra held
    obtain ⟨poolEntry, found⟩ := Option.ne_none_iff_exists'.mp held
    exact reachable.minedChain.unmined txid poolEntry found entry mem listed

theorem claimingChain_storedOnce :
    claimingChain.db.height = 2 ∧ StoredOnce uncheckedEnv claimingChain.db :=
  ⟨by decide, claimingChain_reachable.storedOnce_and_unpooled.1⟩

def wealthyTx : Transaction :=
  { Transaction.setNull with
    vin := [.toKey 18446744073709551615 [1] 9, .toKey 0 [1] 10]
    signaturesSize := 128 }

def trustingStart : Blockchain :=
  { empty with blocksHashCheck := [(0, 0), (121, 0)] }

def trustingGenesis : Blockchain :=
  { (trustingStart.handleBlockToMainChain uncheckedEnv 0 (claimingBlock 0 0 0 []) .init).chain with
    blocksTxsCheck := [4] }

def wealthyPoolChain : Blockchain :=
  { trustingGenesis with
    txPool := (trustingGenesis.txPool.addTx (trustingGenesis.view uncheckedEnv 60) wealthyTx
      (uncheckedEnv.getTransactionHash wealthyTx) 214 .block true
      trustingGenesis.getCurrentHardForkVersion).1 }

def wrappedFeeChain : Blockchain :=
  (wealthyPoolChain.handleBlockToMainChain uncheckedEnv 120
    (claimingBlock 1 1 9999999999 [4]) .init).chain

theorem wrappedFeeChain_coins :
    Reachable uncheckedEnv .any wrappedFeeChain ∧ wrappedFeeChain.db.height = 2 ∧
      (∀ entry ∈ wrappedFeeChain.db.blocks, entry.totalFee < 2 ^ 64) ∧
      wrappedFeeChain.db.alreadyGeneratedCoinsAt 1 = 10000000000 ∧
      claimedCoins (wrappedFeeChain.db.blocks.take 2) = 10000000000 - 2 ^ 64 := by
  have first : ChainStep uncheckedEnv .any trustingStart
      (trustingStart.handleBlockToMainChain uncheckedEnv 0 (claimingBlock 0 0 0 []) .init).chain :=
    .mainBlock _ _ _ _ rfl trivial
  have prepared : ChainStep uncheckedEnv .any _ trustingGenesis :=
    .cache (trustingStart.handleBlockToMainChain uncheckedEnv 0
      _ .init).chain _
      ⟨⟨rfl, rfl, rfl, rfl⟩, rfl, rfl⟩ rfl
  have received : ChainStep uncheckedEnv .any trustingGenesis
      wealthyPoolChain :=
    .incomingTx _ 60 wealthyTx 214 .block true (by decide) (by decide) trivial
  refine ⟨⟨trustingStart, ⟨rfl, rfl, rfl⟩, ?_⟩, by decide, by decide, by decide, by decide⟩
  exact (((Relation.ReflTransGen.single first).tail prepared).tail
    received).tail (.mainBlock _ 120 _ _ rfl trivial)

/-- In every reachable state the stored coins are within the halving schedule, so the supply cap
never changes the next reward. -/
theorem Reachable.alreadyGeneratedCoins_le_scheduledEmission
    (reachable : Reachable env traffic chain) : (∀ height < chain.db.height,
      chain.db.alreadyGeneratedCoinsAt height ≤ scheduledEmission height) ∧
    (∀ height, scheduledEmission height < moneySupply) ∧ ∀ medianWeight blockWeight version,
      getBlockReward medianWeight blockWeight chain.topGeneratedCoins version chain.db.height =
        getBlockRewardUncapped medianWeight blockWeight version chain.db.height := by
  have sound := reachable.soundChain.entries
  refine ⟨?_, scheduledEmission_lt_moneySupply, ?_⟩
  · intro height below
    have bounded := lastGeneratedCoins_le_scheduledEmission (sound.take (height + 1))
    have length : (chain.db.blocks.take (height + 1)).length = height + 1 := by
      rw [length_take]
      exact min_eq_left below
    rwa [length, Nat.add_sub_cancel, ← alreadyGeneratedCoinsAt_eq _ below] at bounded
  · intro medianWeight blockWeight version
    have room := lastGeneratedCoins_add_scheduledReward_lt sound
    rw [topGeneratedCoins_eq, BlockchainDB.height]
    exact getBlockReward_eq_uncapped _ _ _ (by omega) (by omega)

theorem claimingChain_schedule : claimingChain.db.alreadyGeneratedCoinsAt 1 ≤ scheduledEmission 1 ∧
      getBlockReward 0 0 claimingChain.topGeneratedCoins 16 2 = getBlockRewardUncapped 0 0 16 2 :=
  ⟨claimingChain_reachable.alreadyGeneratedCoins_le_scheduledEmission.1 1 (by decide),
    claimingChain_reachable.alreadyGeneratedCoins_le_scheduledEmission.2.2 0 0 16⟩

end Blockchain

/-! ## Generated coins of alternative blocks -/

open LinkedPaths BlockEntry

/-- The ids of the blocks are distinct and not null, and `feeOf` reads a fee off an id. -/
structure CollisionFree (env : Env) (traffic : Traffic) (feeOf : Hash → Nat) : Prop where
  blocks : Set.InjOn env.getBlockHash {block | traffic.block block}
  notNull : ∀ block, traffic.block block → env.getBlockHash block ≠ nullHash
  fee : ∀ tx, traffic.transaction tx → feeOf (env.getTransactionHash tx) = getTxFee tx

def blockFee (feeOf : Hash → Nat) (block : Block) : Nat :=
  sumMod 64 (block.txHashes.map feeOf)

def pathCoins (feeOf : Hash → Nat) : List Block → Nat
  | [] => 0
  | block :: rest =>
    addGeneratedCoins (pathCoins feeOf rest)
      (subMod 64 (getOutsMoneyAmount block.minerTx) (blockFee feeOf block))

/-- A path from a block down to the genesis block, within what a node is
handed. -/
structure BlockPath (env : Env) (traffic : Traffic) (path : List Block) : Prop where
  linked : Linked env.getBlockHash Block.prevId nullHash path
  received : ∀ block ∈ path, traffic.block block

theorem lastBlockHash_eq_tipId (env : Env) (entries : List BlockEntry) :
    lastBlockHash env entries = tipId env.getBlockHash nullHash (entries.map bl).reverse := by
  induction entries using List.reverseRecOn with
  | nil => rfl
  | append_singleton earlier entry => simp [lastBlockHash, tipId]

theorem BlockchainDB.lastBlockHash_getBlockHeight {db : BlockchainDB} {env : Env}
    {id : Hash} (stored : db.blockExists env id = true) :
    lastBlockHash env (db.blocks.take (db.getBlockHeight env id + 1)) = id := by
  have lt := db.getBlockHeight_lt stored
  have named := getElem_idxOf (idxOf_lt_length_iff.mpr (contains_iff_mem.mp stored))
  simp only [blockHashes, getElem_map] at named
  unfold lastBlockHash
  rw [getLast?_take, Nat.add_sub_cancel, getElem?_eq_getElem]
  exact named

section Entries

variable {traffic : Traffic} {feeOf : Hash → Nat} {entries : List BlockEntry}

theorem linked_of_sound (sound : ListFacts.EachAfter (SoundEntry env) entries) :
    Linked env.getBlockHash Block.prevId nullHash (entries.map bl).reverse := by
  induction entries using List.reverseRecOn with
  | nil => exact trivial
  | append_singleton earlier entry ih =>
    rw [map_append, reverse_append]
    refine ⟨?_, ih sound.of_append⟩
    rw [(sound _ _ [] rfl).linked]
    exact lastBlockHash_eq_tipId env earlier

theorem SoundEntry.coins_claimed {prev : List BlockEntry}
    {entry : BlockEntry} (sound : SoundEntry env prev entry)
    (fees : ∀ tx ∈ entry.txs, feeOf (env.getTransactionHash tx) = getTxFee tx) :
    entry.alreadyGeneratedCoins = addGeneratedCoins (lastGeneratedCoins prev)
        (subMod 64 (getOutsMoneyAmount entry.bl.minerTx) (blockFee feeOf entry.bl)) ∧
      subMod 64 (getOutsMoneyAmount entry.bl.minerTx) (blockFee feeOf entry.bl) ≤
          getBaseReward (lastGeneratedCoins prev) prev.length := by
  have summed : blockFee feeOf entry.bl = sumMod 64 (entry.txs.map getTxFee) := by
    rw [blockFee, ← sound.txids, map_map]
    exact congrArg _ (map_congr_left fees)
  rw [summed]
  exact sound.coins_settled

theorem lastGeneratedCoins_eq_pathCoins (sound : ListFacts.EachAfter (SoundEntry env) entries)
    (fees : ∀ entry ∈ entries, ∀ tx ∈ entry.txs, feeOf (env.getTransactionHash tx) = getTxFee tx) :
    lastGeneratedCoins entries = pathCoins feeOf (entries.map bl).reverse := by
  induction entries using List.reverseRecOn with
  | nil => rfl
  | append_singleton earlier entry ih =>
    have before := ih sound.of_append (fun other mem => fees other (mem_append_left _ mem))
    rw [lastGeneratedCoins_append_singleton, map_append, reverse_append]
    have last := fees entry (mem_append_right _ mem_cons_self)
    rw [((sound _ _ [] rfl).coins_claimed last).1, before]
    rfl

end Entries

namespace Blockchain

variable {traffic : Traffic} {feeOf : Hash → Nat} {chain after : Blockchain}

/-- The blocks of a path that came as alternative blocks carry no fees. -/
def Feeless (traffic : Traffic) (feeOf : Hash → Nat) (path : List Block) : Prop :=
  ∀ block ∈ path, traffic.alternative block → blockFee feeOf block = 0

/-- Alternative records above no fees have the coins the main path would compute. -/
def AlternativesAgree (env : Env) (traffic : Traffic) (feeOf : Hash → Nat)
    (chain : Blockchain) : Prop :=
  ∀ id bei, chain.db.altBlocks.lookup id = some bei → env.getBlockHash bei.bl = id ∧ ∃ path,
      BlockPath env traffic (bei.bl :: path) ∧ (Feeless traffic feeOf (bei.bl :: path) →
        bei.alreadyGeneratedCoins = pathCoins feeOf (bei.bl :: path))

theorem SoundChain.blockPath (sound : SoundChain env traffic chain) (count : Nat) :
    BlockPath env traffic ((chain.db.blocks.take count).map bl).reverse := by
  refine ⟨linked_of_sound (sound.entries.take count), ?_⟩
  intro block mem
  obtain ⟨entry, lt, rfl⟩ := mem_map.mp (mem_reverse.mp mem)
  exact sound.blocks entry (mem_of_mem_take lt)

theorem SoundChain.lastGeneratedCoins_take (sound : SoundChain env traffic chain)
    (free : CollisionFree env traffic feeOf) (count : Nat) :
    lastGeneratedCoins (chain.db.blocks.take count) = pathCoins feeOf
      ((chain.db.blocks.take count).map bl).reverse := by
  refine lastGeneratedCoins_eq_pathCoins (sound.entries.take count) ?_
  intro entry mem tx txMember
  exact free.fee tx (sound.txs entry (mem_of_mem_take mem) tx txMember)

theorem AcceptedAlternative.parentPath {block : Block} {altChain : List BlockExtendedInfo}
    {bei : BlockExtendedInfo} (accepted : AcceptedAlternative env chain block altChain bei)
    (free : CollisionFree env traffic feeOf) (permitted : traffic.block block)
    (sound : SoundChain env traffic chain) (agree : AlternativesAgree env traffic feeOf chain) :
    ∃ path, BlockPath env traffic (block :: path) ∧ (Feeless traffic feeOf path →
      bei.alreadyGeneratedCoins = addGeneratedCoins (pathCoins feeOf path)
        (getOutsMoneyAmount block.minerTx)) := by
  obtain ⟨times, built⟩ := accepted.built
  obtain ⟨walked, rootExists, -⟩ := buildAltChain_eq_some built
  have last := chain.db.getLast?_altChainTo block.prevId
  rw [← walked] at last
  have coins := accepted.alreadyGeneratedCoins
  unfold alternativeParent at coins
  rw [last] at coins
  rcases found : chain.db.altBlocks.lookup block.prevId with _ | parent
  · rw [found] at last coins
    rw [getLast?_eq_none_iff.mp last] at rootExists
    have stored : chain.db.blockExists env block.prevId = true := rootExists
    have below := sound.blockPath (chain.db.getBlockHeight env block.prevId + 1)
    refine ⟨_, ⟨⟨?_, below.linked⟩, forall_mem_cons.mpr ⟨permitted, below.received⟩⟩, ?_⟩
    · rw [← lastBlockHash_eq_tipId]
      exact (BlockchainDB.lastBlockHash_getBlockHeight stored).symm
    · intro _
      rw [coins, ← sound.lastGeneratedCoins_take free]
      dsimp only
      rw [alreadyGeneratedCoinsAt_eq _ (BlockchainDB.getBlockHeight_lt stored)]
  · rw [found] at coins
    obtain ⟨named, path, below, exact_⟩ := agree _ parent found
    refine ⟨parent.bl :: path, ⟨⟨named.symm, below.linked⟩, ?_⟩, ?_⟩
    · exact forall_mem_cons.mpr ⟨permitted, below.received⟩
    · intro feeless
      rw [coins, ← exact_ feeless]

section

variable (free : CollisionFree env traffic feeOf)

include free

theorem ChainStep.alternativesAgree (step : ChainStep env traffic chain after)
    (sound : SoundChain env traffic chain)
    (agree : AlternativesAgree env traffic feeOf chain) :
    AlternativesAgree env traffic feeOf after := by
  intro id bei found
  rcases step.altBlocks_cases with
    ⟨block, altChain, added, permitted, allowed, verdict, inserted⟩ | ⟨dropped, erased⟩ | same
  · rw [inserted] at found
    rcases AList.lookup_insert_eq_some_iff.mp found with
      ⟨rfl, rfl⟩ | ⟨_, before⟩
    · have accepted := checkAlternativeBlock_accepted verdict
      obtain ⟨path, below, coins⟩ := accepted.parentPath free permitted sound agree
      rw [← accepted.bl] at below coins ⊢
      refine ⟨rfl, path, below, ?_⟩
      intro feeless
      obtain ⟨own, ancestors⟩ := forall_mem_cons.mp feeless
      rw [accepted.bl] at own
      rw [coins ancestors, pathCoins, accepted.bl, own allowed,
        (subMod_eq_self_iff (getOutsMoneyAmount_lt _) (by decide)).mpr rfl]
    · exact agree id bei before
  · rw [erased, AList.lookup_erase_eq_some_iff] at found
    exact agree id bei found.2
  · rw [same] at found
    exact agree id bei found

theorem Reachable.alternativesAgree (reachable : Reachable env traffic chain) :
    AlternativesAgree env traffic feeOf chain := by
  obtain ⟨start, started, run⟩ := reachable
  induction run with
  | refl =>
    intro id bei found
    rw [started.altBlocks] at found
    simp at found
  | tail run step ih =>
    exact step.alternativesAgree free (Reachable.soundChain ⟨start, started, run⟩) ih

end

/-- The generated coins of a block are the same on both paths exactly when it carries no fees, if
none of its alternative ancestors does. -/
theorem Reachable.alternativeCoins_eq_iff (free : CollisionFree env traffic feeOf)
    (reachable : Reachable env traffic chain) {block : Block} (feeless : ∀ path,
      BlockPath env traffic (block :: path) → Feeless traffic feeOf path)
    {altChain : List BlockExtendedInfo} {bei : BlockExtendedInfo} (permitted : traffic.block block)
    (accepted : chain.checkAlternativeBlock env block
      (env.getBlockHash block) = .accepted altChain bei) {later : Blockchain}
    (run : Run env traffic.anyAlternative
      (chain.storeAlternative (env.getBlockHash block) bei) later)
    {height : Nat} {entry : BlockEntry}
    (stored : later.db.blocks[height]? = some entry) (same : entry.bl = block) :
    entry.alreadyGeneratedCoins = bei.alreadyGeneratedCoins ↔ blockFee feeOf block = 0 := by
  have sound := reachable.soundChain
  obtain ⟨path, above, alternativeCoins⟩ :=
    (checkAlternativeBlock_accepted accepted).parentPath free permitted sound
      (reachable.alternativesAgree free)
  have laterSound : SoundChain env traffic.anyAlternative later :=
    run.preserves (fun step => step.soundChain) ⟨sound.pool, sound.entries, sound.blocks, sound.txs⟩
  have member := mem_of_getElem? stored
  have below := laterSound.blockPath (height + 1)
  rw [take_add_one, stored, map_append, reverse_append] at below
  have paths : path = ((later.db.blocks.take height).map bl).reverse :=
    Linked.unique free.blocks free.notNull (forall_mem_cons.mp above.received).2
      (forall_mem_cons.mp below.received).2
      above.linked (same ▸ below.linked)
  have coins := SoundChain.lastGeneratedCoins_take laterSound
    ⟨free.blocks, free.notNull, free.fee⟩ height
  have entrySound := laterSound.entries.of_getElem? stored
  obtain ⟨mainCoins, claimed⟩ := SoundEntry.coins_claimed entrySound
    (fun tx txMember => free.fee tx (laterSound.txs entry member tx txMember))
  have room := lastGeneratedCoins_add_scheduledReward_lt (laterSound.entries.take height)
  have scheduled := getBaseReward_le_scheduledReward
    (lastGeneratedCoins (later.db.blocks.take height))
    (later.db.blocks.take height).length
  rw [mainCoins, alternativeCoins (feeless path above), paths, ← coins, same,
    addGeneratedCoins_inj (by rw [← same]; omega)]
  exact subMod_eq_self_iff (getOutsMoneyAmount_lt _) (sumMod_lt _)

def rivalBlock (claimed : UInt64) (txHashes : List Hash) : Block :=
  { claimingBlock 1 1 claimed txHashes with timestamp := 121 }

def rivalInfo : BlockExtendedInfo where
  bl := rivalBlock 10000000000 []
  height := 1
  blockCumulativeWeight := 45
  cumulativeDifficulty := 2
  alreadyGeneratedCoins := 10000000000

def rivalChain : Blockchain :=
  (((claimingChain.storeAlternative 122 rivalInfo).popBlockFromBlockchain
    uncheckedEnv 130).2.handleBlockToMainChain uncheckedEnv 130
      (rivalBlock 10000000000 []) .init).chain

def payingTx : Transaction :=
  { Transaction.setNull with
    vin := [.toKey 1000 [1] 9, .toKey 500 [2] 10]
    vout := [⟨500, .toKey 7⟩]
    signaturesSize := 128 }

def payingFee (txid : Hash) : Nat :=
  if txid = 12 then 1000 else 0

def rivalBlocks : List Block :=
  [claimingBlock 0 0 0 [], claimingBlock 1 1 10000000000 [], rivalBlock 10000000000 []]

def rivalTraffic : Traffic where
  block block := block ∈ rivalBlocks
  alternative block := blockFee payingFee block = 0
  transaction tx := tx = payingTx

theorem rivalTraffic_collisionFree : CollisionFree uncheckedEnv rivalTraffic payingFee := by
  have distinct : ∀ left ∈ rivalBlocks, ∀ right ∈ rivalBlocks,
      uncheckedEnv.getBlockHash left = uncheckedEnv.getBlockHash right → left = right := by
    decide
  have notNull : ∀ block ∈ rivalBlocks, uncheckedEnv.getBlockHash block ≠ nullHash := by decide
  refine ⟨fun left first right second => distinct left first right second, notNull, ?_⟩
  rintro tx rfl
  decide

theorem rivalChain_coins : ∃ entry, rivalChain.db.blocks[1]? = some entry ∧
      (entry.alreadyGeneratedCoins = rivalInfo.alreadyGeneratedCoins ↔
        blockFee payingFee (rivalBlock 10000000000 []) = 0) := by
  have received : ∀ block ∈ rivalBlocks, rivalTraffic.block block := fun _ member => member
  have reachable : Reachable uncheckedEnv rivalTraffic claimingChain :=
    ⟨empty, ⟨rfl, rfl, rfl⟩, (Relation.ReflTransGen.single
        (.mainBlock _ _ _ _ rfl (received _ (by decide)))).tail
        (.mainBlock _ _ _ _ rfl (received _ (by decide)))⟩
  have popped : ChainStep uncheckedEnv rivalTraffic.anyAlternative
      (claimingChain.storeAlternative 122 rivalInfo) _ := .pop _ 130
  have run : Run uncheckedEnv rivalTraffic.anyAlternative
      (claimingChain.storeAlternative 122 rivalInfo) rivalChain :=
    (Relation.ReflTransGen.single popped).tail
      (.mainBlock _ 130 _ .init rfl (received _ (by decide)))
  refine ⟨rivalChain.db.blocks.get ⟨1, by decide⟩, by decide, ?_⟩
  exact @Reachable.alternativeCoins_eq_iff uncheckedEnv rivalTraffic payingFee
    claimingChain rivalTraffic_collisionFree reachable (rivalBlock 10000000000 [])
    (fun _ _ _ _ feeless => feeless) [] rivalInfo
    (received _ (by decide)) (by decide) rivalChain run 1 _ (by decide)
    (by decide)

def checkedEnv : Env :=
  { uncheckedEnv with checkTxInputs := fun _ _ _ => some 0 }

def rivalChild : Block where
  majorVersion := 16
  minorVersion := 16
  timestamp := 240
  prevId := 122
  nonce := 0
  minerTx := { Transaction.setNull with
      version := 2
      unlockTime := 62
      vin := [.gen 2]
      vout := List.replicate 2 ⟨5000000000, .toTaggedKey 5 1⟩ }
  txHashes := []

def twoBlockChain : Blockchain :=
  (addNewBlock 1 (addNewBlock 1 empty checkedEnv 0
    (claimingBlock 0 0 0 []) .init).chain checkedEnv 120
      (claimingBlock 1 1 10000000000 []) .init).chain

def payingChain : Blockchain :=
  { twoBlockChain with
    txPool := (twoBlockChain.txPool.addTx (twoBlockChain.view checkedEnv 121)
      payingTx (checkedEnv.getTransactionHash payingTx) 242 .block true
      twoBlockChain.getCurrentHardForkVersion).1 }

def payingRivalChain : Blockchain :=
  (addNewBlock 1 payingChain checkedEnv 125 (rivalBlock 10000001000 [12]) .init).chain

def switchedChain : Blockchain :=
  (addNewBlock 2 payingRivalChain checkedEnv 240 rivalChild .init).chain

theorem payingRival_coins : NodeRun checkedEnv empty switchedChain ∧
      (payingRivalChain.db.altBlocks.lookup 122).map
        (fun bei => (bei.bl, bei.alreadyGeneratedCoins)) =
          some (rivalBlock 10000001000 [12], 10000001000) ∧ switchedChain.db.blocks[1]?.map
        (fun entry => (entry.bl, entry.alreadyGeneratedCoins)) =
          some (rivalBlock 10000001000 [12], 10000000000) := by
  have received : NodeRun checkedEnv twoBlockChain payingChain :=
    .single (.incomingTx _ 121 payingTx 242 .block true (by decide) (by decide) trivial)
  refine ⟨?_, by decide, by decide⟩
  exact ((((addNewBlock_nodeRun 1 _ _ rfl).trans
    (addNewBlock_nodeRun 1 _ _ rfl)).trans received).trans
      (addNewBlock_nodeRun 1 _ _ rfl)).trans (addNewBlock_nodeRun 2 _ _ rfl)

end Blockchain

end LodeChain

import LodeChain.WrappedArithmetic
import Mathlib.Order.Bounds.Basic

/-!
# The next full and the next pruned block

A node with a pruning seed keeps the heights of its stripe and of the tip in full.
-/

namespace LodeChain

open WrappedArithmetic

def cryptonoteMaxBlockNumber : Nat :=
  500000000

def cryptonotePruningStripeSize : Nat :=
  4096

def cryptonotePruningLogStripes : Nat :=
  3

def cryptonotePruningTipBlocks : Nat :=
  5500

def getPruningLogStripes (pruningSeed : Nat) : Nat :=
  (pruningSeed >>> 7) &&& 0x7

def getPruningStripe (pruningSeed : Nat) : Nat :=
  if pruningSeed = 0 then 0 else 1 + (pruningSeed &&& 0x7f)

def makePruningSeed (stripe logStripes : Nat) : Option Nat :=
  if logStripes ≤ 0x7 ∧ 0 < stripe ∧ stripe ≤ 1 <<< logStripes then
    some ((logStripes <<< 7) ||| (stripe - 1))
  else none

def isPruningTip (blockHeight blockchainHeight : Nat) : Bool :=
  decide (blockchainHeight ≤ addMod 64 blockHeight cryptonotePruningTipBlocks)

def stripeOfBlock (blockHeight logStripes : Nat) : Nat :=
  ((blockHeight / cryptonotePruningStripeSize) &&& (1 <<< logStripes - 1)) + 1

def getPruningStripeAt (blockHeight blockchainHeight logStripes : Nat) : Nat :=
  if isPruningTip blockHeight blockchainHeight then 0
  else stripeOfBlock blockHeight logStripes

def hasUnprunedBlock (blockHeight blockchainHeight pruningSeed : Nat) : Bool :=
  let stripe := getPruningStripe pruningSeed
  let blockStripe := getPruningStripeAt blockHeight blockchainHeight
    (getPruningLogStripes pruningSeed)
  decide (stripe = 0) || decide (blockStripe = 0) || decide (blockStripe = stripe)

def seedLogStripes (pruningSeed : Nat) : Nat :=
  if getPruningLogStripes pruningSeed = 0 then cryptonotePruningLogStripes
  else getPruningLogStripes pruningSeed

def getNextUnprunedBlockHeight (blockHeight blockchainHeight pruningSeed : Nat) : Nat :=
  let stripe := getPruningStripe pruningSeed
  if cryptonoteMaxBlockNumber + 1 < blockHeight ∨
      cryptonoteMaxBlockNumber + 1 < blockchainHeight ∨ stripe = 0 ∨
      isPruningTip blockHeight blockchainHeight then
    blockHeight
  else
    let logStripes := seedLogStripes pruningSeed
    let blockPruningStripe := stripeOfBlock blockHeight logStripes
    if blockPruningStripe = stripe then blockHeight
    else
      let cycles := (blockHeight / cryptonotePruningStripeSize) >>> logStripes
      let cycleStart := cycles + if blockPruningStripe < stripe then 0 else 1
      let h := cycleStart * (cryptonotePruningStripeSize <<< logStripes) +
        (stripe - 1) * cryptonotePruningStripeSize
      if blockchainHeight < h + cryptonotePruningTipBlocks then
        blockchainHeight - cryptonotePruningTipBlocks
      else if h < blockHeight then blockHeight
      else h

/-- `get_next_pruned_block_height`, with no result when `make_pruning_seed`
throws. -/
def getNextPrunedBlockHeight (blockHeight blockchainHeight pruningSeed : Nat) : Option Nat :=
  let stripe := getPruningStripe pruningSeed
  if stripe = 0 ∨ isPruningTip blockHeight blockchainHeight then some blockchainHeight
  else
    let logStripes := seedLogStripes pruningSeed
    let blockPruningSeed := stripeOfBlock blockHeight logStripes
    if blockPruningSeed ≠ stripe then some blockHeight
    else
      let nextStripe := 1 + (blockPruningSeed &&& (1 <<< logStripes - 1))
      (makePruningSeed nextStripe logStripes).map
        (getNextUnprunedBlockHeight blockHeight blockchainHeight)

@[simp]
theorem getNextUnprunedBlockHeight_zero (blockHeight blockchainHeight : Nat) :
    getNextUnprunedBlockHeight blockHeight blockchainHeight 0 = blockHeight := by
  simp [getNextUnprunedBlockHeight, getPruningStripe]

@[simp]
theorem getNextPrunedBlockHeight_zero (blockHeight blockchainHeight : Nat) :
    getNextPrunedBlockHeight blockHeight blockchainHeight 0 = some blockchainHeight := by
  simp [getNextPrunedBlockHeight, getPruningStripe]

/-! ## Residues -/

def nextWithResidue (modulus residue number : Nat) : Nat :=
  (number / modulus + if number % modulus ≤ residue then 0 else 1) * modulus + residue

theorem nextWithResidue_isLeast {modulus residue : Nat} (small : residue < modulus) (number : Nat) :
    IsLeast {other | number ≤ other ∧ other % modulus = residue}
      (nextWithResidue modulus residue number) := by
  have whole := Nat.div_add_mod' number modulus
  have rest := Nat.mod_lt number (by omega : 0 < modulus)
  constructor
  · refine ⟨?_, ?_⟩
    · unfold nextWithResidue
      rw [add_mul]
      split_ifs <;> omega
    · rw [nextWithResidue, Nat.mul_add_mod_self_right, Nat.mod_eq_of_lt small]
  · rintro other ⟨from_, leaves⟩
    have otherWhole := Nat.div_add_mod' other modulus
    have quotients : number / modulus ≤ other / modulus := Nat.div_le_div_right from_
    unfold nextWithResidue
    split_ifs with before
    · have := Nat.mul_le_mul_right modulus quotients
      rw [add_zero]
      omega
    · have later : number / modulus + 1 ≤ other / modulus := by
        by_contra same
        have eq : other / modulus = number / modulus := by omega
        rw [eq] at otherWhole
        omega
      have := Nat.mul_le_mul_right modulus later
      omega

theorem succ_mod_ne {modulus : Nat} (two : 2 ≤ modulus) (number : Nat) :
    (number + 1) % modulus ≠ number % modulus := by
  have below := Nat.mod_lt number (by omega : 0 < modulus)
  rw [← Nat.mod_add_mod]
  generalize number % modulus = residue at below ⊢
  rcases lt_or_ge (residue + 1) modulus with fits | wraps
  · rw [Nat.mod_eq_of_lt fits]
    omega
  · rw [show residue + 1 = modulus by omega, Nat.mod_self]
    omega

/-! ## Seeds -/

structure IsSeed (stripe logStripes pruningSeed : Nat) : Prop where
  logStripes_le : logStripes ≤ 7
  stripe_pos : 0 < stripe
  stripe_le : stripe ≤ 2 ^ logStripes
  value : pruningSeed = 128 * logStripes + (stripe - 1)

theorem makePruningSeed_eq_some_iff {stripe logStripes pruningSeed : Nat} :
    makePruningSeed stripe logStripes = some pruningSeed ↔
      IsSeed stripe logStripes pruningSeed := by
  have value : logStripes ≤ 7 → stripe ≤ 2 ^ logStripes → 0 < stripe →
      (logStripes <<< 7 ||| (stripe - 1)) = 128 * logStripes + (stripe - 1) := by
    intro low within pos
    have few : 2 ^ logStripes ≤ 2 ^ 7 := Nat.pow_le_pow_right (by decide) low
    rw [Nat.shiftLeft_eq, mul_comm, ← Nat.two_pow_add_eq_or_of_lt (by omega)]
  unfold makePruningSeed
  rw [Nat.one_shiftLeft]
  constructor
  · intro made
    split_ifs at made with valid
    rw [value valid.1 valid.2.2 valid.2.1] at made
    exact ⟨valid.1, valid.2.1, valid.2.2, (Option.some.inj made).symm⟩
  · intro seed
    rw [if_pos ⟨seed.logStripes_le, seed.stripe_pos, seed.stripe_le⟩,
      value seed.logStripes_le seed.stripe_le seed.stripe_pos, seed.value]

namespace IsSeed

variable {stripe logStripes pruningSeed : Nat} (seed : IsSeed stripe logStripes pruningSeed)

include seed

theorem stripe_le_128 : stripe ≤ 128 :=
  seed.stripe_le.trans (Nat.pow_le_pow_right (by decide) seed.logStripes_le)

theorem getPruningLogStripes_eq : getPruningLogStripes pruningSeed = logStripes := by
  have low := seed.logStripes_le
  have within := seed.stripe_le_128
  have quotient : (128 * logStripes + (stripe - 1)) / 2 ^ 7 = logStripes := by omega
  have mask : logStripes &&& (2 ^ 3 - 1) = logStripes := by
    rw [Nat.and_two_pow_sub_one_eq_mod]
    omega
  rw [getPruningLogStripes, seed.value, Nat.shiftRight_eq_div_pow, quotient]
  exact mask

theorem getPruningStripe_eq (nonzero : pruningSeed ≠ 0) :
    getPruningStripe pruningSeed = stripe := by
  have within := seed.stripe_le_128
  have pos := seed.stripe_pos
  have low := Nat.and_two_pow_sub_one_eq_mod pruningSeed 7
  rw [getPruningStripe, if_neg nonzero, low, seed.value]
  omega

theorem logStripes_pos (nonzero : pruningSeed ≠ 0) : 0 < logStripes := by
  by_contra none_
  obtain rfl : logStripes = 0 := by omega
  have within := seed.stripe_le
  have value := seed.value
  omega

theorem seedLogStripes_eq (nonzero : pruningSeed ≠ 0) :
    seedLogStripes pruningSeed = logStripes := by
  have pos := seed.logStripes_pos nonzero
  rw [seedLogStripes, seed.getPruningLogStripes_eq, if_neg (by omega)]

end IsSeed

/-! ## Full heights -/

def stripeIndex (logStripes height : Nat) : Nat :=
  height / cryptonotePruningStripeSize % 2 ^ logStripes

theorem stripeOfBlock_eq (blockHeight logStripes : Nat) :
    stripeOfBlock blockHeight logStripes = stripeIndex logStripes blockHeight + 1 := by
  rw [stripeOfBlock, Nat.one_shiftLeft, Nat.and_two_pow_sub_one_eq_mod, stripeIndex]

theorem isPruningTip_iff {blockHeight : Nat} (blockchainHeight : Nat)
    (small : blockHeight + cryptonotePruningTipBlocks < 2 ^ 64) :
    isPruningTip blockHeight blockchainHeight = true ↔
      blockchainHeight ≤ blockHeight + cryptonotePruningTipBlocks := by
  rw [isPruningTip, decide_eq_true_iff, addMod_of_lt small]

theorem hasUnprunedBlock_zero (blockHeight blockchainHeight : Nat) :
    hasUnprunedBlock blockHeight blockchainHeight 0 = true := by
  simp [hasUnprunedBlock, getPruningStripe]

def nextStripeStart (stripe logStripes blockHeight : Nat) : Nat :=
  nextWithResidue (2 ^ logStripes) (stripe - 1)
    (blockHeight / cryptonotePruningStripeSize) * cryptonotePruningStripeSize

section Heights

variable {stripe logStripes pruningSeed blockHeight blockchainHeight : Nat}
  (seed : IsSeed stripe logStripes pruningSeed) (nonzero : pruningSeed ≠ 0)

include seed

theorem nextStripeStart_isLeast (other : stripeIndex logStripes blockHeight ≠ stripe - 1) :
    IsLeast {height | blockHeight ≤ height ∧ stripeIndex logStripes height = stripe - 1}
      (nextStripeStart stripe logStripes blockHeight) := by
  have within := seed.stripe_le
  have pos := seed.stripe_pos
  obtain ⟨⟨reached, leaves⟩, least⟩ := nextWithResidue_isLeast
    (by omega : stripe - 1 < 2 ^ logStripes) _
  unfold nextStripeStart
  generalize nextWithResidue _ _ _ = next at reached leaves least ⊢
  have later : blockHeight / cryptonotePruningStripeSize < next := by
    rcases eq_or_lt_of_le reached with same | before
    · rw [← same] at leaves
      exact absurd leaves other
    · exact before
  have sizePos : 0 < cryptonotePruningStripeSize := by decide
  refine ⟨⟨((Nat.div_lt_iff_lt_mul sizePos).mp later).le, ?_⟩, ?_⟩
  · rw [stripeIndex, Nat.mul_div_cancel _ sizePos, leaves]
  · rintro height ⟨above, mine⟩
    exact (Nat.le_div_iff_mul_le sizePos).mp (least ⟨Nat.div_le_div_right above, mine⟩)

include nonzero

theorem hasUnprunedBlock_iff (small : blockHeight + cryptonotePruningTipBlocks < 2 ^ 64) :
    hasUnprunedBlock blockHeight blockchainHeight pruningSeed = true ↔
      blockchainHeight ≤ blockHeight + cryptonotePruningTipBlocks ∨
        stripeIndex logStripes blockHeight = stripe - 1 := by
  have pos := seed.stripe_pos
  have tip := isPruningTip_iff blockchainHeight small
  unfold hasUnprunedBlock
  rw [seed.getPruningStripe_eq nonzero, seed.getPruningLogStripes_eq]
  simp only [getPruningStripeAt, stripeOfBlock_eq, Bool.or_eq_true, decide_eq_true_eq]
  by_cases recent : isPruningTip blockHeight blockchainHeight = true
  · simp [recent, tip.mp]
  · have old := mt tip.mpr recent
    rw [if_neg recent]
    omega

theorem getNextUnprunedBlockHeight_of_full
    (small : blockHeight + cryptonotePruningTipBlocks < 2 ^ 64)
    (full : hasUnprunedBlock blockHeight blockchainHeight pruningSeed = true) :
    getNextUnprunedBlockHeight blockHeight blockchainHeight pruningSeed = blockHeight := by
  have pos := seed.stripe_pos
  unfold getNextUnprunedBlockHeight
  simp only [seed.getPruningStripe_eq nonzero, seed.seedLogStripes_eq nonzero, stripeOfBlock_eq]
  rcases (hasUnprunedBlock_iff seed nonzero small).mp full with recent | mine
  · have tip := (isPruningTip_iff blockchainHeight small).mpr recent
    rw [if_pos (.inr (.inr (.inr tip)))]
  · rw [mine, if_pos (by omega : stripe - 1 + 1 = stripe), ite_self]

variable (bounded : blockchainHeight ≤ cryptonoteMaxBlockNumber + 1)

include bounded

theorem hasUnprunedBlock_iff_of_le (lt : blockHeight ≤ blockchainHeight) :
    hasUnprunedBlock blockHeight blockchainHeight pruningSeed = true ↔
      blockchainHeight ≤ blockHeight + cryptonotePruningTipBlocks ∨
        stripeIndex logStripes blockHeight = stripe - 1 := by
  have maximum : cryptonoteMaxBlockNumber = 500000000 := rfl
  have tipBlocks : cryptonotePruningTipBlocks = 5500 := rfl
  exact hasUnprunedBlock_iff seed nonzero (by omega)

theorem getNextUnprunedBlockHeight_of_pruned
    (old : blockHeight + cryptonotePruningTipBlocks < blockchainHeight)
    (other : stripeIndex logStripes blockHeight ≠ stripe - 1) :
    getNextUnprunedBlockHeight blockHeight blockchainHeight pruningSeed =
      min (nextStripeStart stripe logStripes blockHeight)
        (blockchainHeight - cryptonotePruningTipBlocks) := by
  have pos := seed.stripe_pos
  have maximum : cryptonoteMaxBlockNumber = 500000000 := rfl
  have tip := isPruningTip_iff blockchainHeight
    (by omega : blockHeight + cryptonotePruningTipBlocks < 2 ^ 64)
  have reached := (nextStripeStart_isLeast seed other).1.1
  have start : (blockHeight / cryptonotePruningStripeSize / 2 ^ logStripes +
        if stripeOfBlock blockHeight logStripes < stripe then 0 else 1) *
          (cryptonotePruningStripeSize * 2 ^ logStripes) +
        (stripe - 1) * cryptonotePruningStripeSize =
      nextStripeStart stripe logStripes blockHeight := by
    have sides : stripeOfBlock blockHeight logStripes < stripe ↔
        stripeIndex logStripes blockHeight ≤ stripe - 1 := by
      rw [stripeOfBlock_eq]
      omega
    rw [nextStripeStart, nextWithResidue, ← stripeIndex]
    simp [sides]
    ring
  unfold getNextUnprunedBlockHeight
  simp only [seed.getPruningStripe_eq nonzero, seed.seedLogStripes_eq nonzero,
    Nat.shiftRight_eq_div_pow, Nat.shiftLeft_eq, start]
  rw [if_neg, if_neg]
  · split_ifs <;> omega
  · rw [stripeOfBlock_eq]
    omega
  · rw [tip]
    omega

omit nonzero in
theorem isLeast_getNextUnprunedBlockHeight (lt : blockHeight ≤ blockchainHeight) :
    IsLeast {height | blockHeight ≤ height ∧
        hasUnprunedBlock height blockchainHeight pruningSeed = true}
      (getNextUnprunedBlockHeight blockHeight blockchainHeight pruningSeed) := by
  have maximum : cryptonoteMaxBlockNumber = 500000000 := rfl
  have tipBlocks : cryptonotePruningTipBlocks = 5500 := rfl
  rcases eq_zero_or_pos pruningSeed with rfl | pos
  · rw [getNextUnprunedBlockHeight_zero]
    exact ⟨⟨le_rfl, hasUnprunedBlock_zero _ _⟩, fun height above => above.1⟩
  have nonzero : pruningSeed ≠ 0 := by omega
  have kept := fun {height} => @hasUnprunedBlock_iff_of_le _ _ _ height _ seed nonzero bounded
  by_cases full : hasUnprunedBlock blockHeight blockchainHeight pruningSeed = true
  · rw [getNextUnprunedBlockHeight_of_full seed nonzero (by omega) full]
    exact ⟨⟨le_rfl, full⟩, fun height above => above.1⟩
  · have pruned := mt (kept lt).mpr full
    push Not at pruned
    obtain ⟨⟨reached, mine⟩, least⟩ := nextStripeStart_isLeast seed pruned.2
    rw [getNextUnprunedBlockHeight_of_pruned seed nonzero bounded pruned.1 pruned.2]
    generalize nextStripeStart _ _ _ = start at reached mine least ⊢
    refine ⟨⟨by omega, ?_⟩, ?_⟩
    · rw [kept (by omega)]
      rcases le_total start (blockchainHeight - cryptonotePruningTipBlocks)
        with first | tipFirst
      · rw [min_eq_left first]
        exact .inr mine
      · rw [min_eq_right tipFirst]
        exact .inl (by omega)
    · rintro height ⟨above, heightFull⟩
      rcases le_total blockchainHeight height with beyond | below
      · omega
      · rcases (kept below).mp heightFull with recent | other
        · omega
        · exact (min_le_left _ _).trans (least ⟨above, other⟩)

end Heights

/-- `get_next_unpruned_block_height` gives the least height from the given one on that is kept in
full. -/
theorem getNextUnprunedBlockHeight_isLeast
    {stripe logStripes pruningSeed : Nat} (blockHeight blockchainHeight : Nat)
    (made : makePruningSeed stripe logStripes = some pruningSeed)
    (bounded : blockchainHeight ≤ cryptonoteMaxBlockNumber + 1)
    (inside : blockHeight ≤ blockchainHeight) : IsLeast {height | blockHeight ≤ height ∧
        hasUnprunedBlock height blockchainHeight pruningSeed = true}
      (getNextUnprunedBlockHeight blockHeight blockchainHeight pruningSeed) :=
  isLeast_getNextUnprunedBlockHeight (makePruningSeed_eq_some_iff.mp made) bounded inside

theorem secondStripe_isLeast :
    IsLeast {height | 8192 ≤ height ∧ hasUnprunedBlock height 10000000 385 = true} 36864 :=
  getNextUnprunedBlockHeight_isLeast 8192 10000000
    (by decide : makePruningSeed 2 3 = some 385) (by decide) (by decide)

/-! ## Pruned heights -/

def IsNextPruned (blockHeight blockchainHeight pruningSeed result : Nat) : Prop :=
  IsLeast {height | blockHeight ≤ height ∧ height < blockchainHeight ∧
      hasUnprunedBlock height blockchainHeight pruningSeed = false} result ∨
    result = blockchainHeight ∧ ∀ height, blockHeight ≤ height → height < blockchainHeight →
      hasUnprunedBlock height blockchainHeight pruningSeed = true

def nextStripeIsOld (blockHeight blockchainHeight : Nat) : Bool :=
  decide ((blockHeight / cryptonotePruningStripeSize + 1) *
    cryptonotePruningStripeSize + cryptonotePruningTipBlocks < blockchainHeight)

section Pruned

variable {stripe logStripes pruningSeed blockHeight blockchainHeight : Nat}
  (seed : IsSeed stripe logStripes pruningSeed) (nonzero : pruningSeed ≠ 0)

theorem isNextPruned_of_all_full (all : ∀ height, blockHeight ≤ height → height < blockchainHeight →
      hasUnprunedBlock height blockchainHeight pruningSeed = true) {result : Nat} :
    IsNextPruned blockHeight blockchainHeight pruningSeed result ↔ result = blockchainHeight := by
  constructor
  · rintro (⟨⟨above, below, pruned⟩, -⟩ | ⟨same, -⟩)
    · rw [all result above below] at pruned
      cases pruned
    · exact same
  · intro same
    exact .inr ⟨same, all⟩

theorem nextStripeStart_succ {next : Nat}
    (nextSeed : IsSeed next logStripes pruningSeed) (several : 0 < logStripes)
    (follows : next - 1 = (blockHeight / cryptonotePruningStripeSize + 1) % 2 ^ logStripes) :
    stripeIndex logStripes blockHeight ≠ next - 1 ∧ nextStripeStart next logStripes blockHeight =
        (blockHeight / cryptonotePruningStripeSize + 1) * cryptonotePruningStripeSize := by
  have sizePos : 0 < cryptonotePruningStripeSize := by decide
  have two : 2 ≤ 2 ^ logStripes := Nat.le_self_pow (by omega) 2
  have apart : stripeIndex logStripes blockHeight ≠ next - 1 := by
    rw [follows]
    exact (succ_mod_ne two _).symm
  refine ⟨apart, (nextStripeStart_isLeast nextSeed apart).unique ⟨⟨?_, ?_⟩, ?_⟩⟩
  · exact ((Nat.div_lt_iff_lt_mul sizePos).mp (Nat.lt_succ_self _)).le
  · rw [stripeIndex, Nat.mul_div_cancel _ sizePos, follows]
  · rintro height ⟨above, mine⟩
    refine (Nat.le_div_iff_mul_le sizePos).mp ?_
    rcases eq_or_lt_of_le (Nat.div_le_div_right above) with same | later
    · rw [stripeIndex, ← same] at mine
      exact absurd mine apart
    · exact later

include seed nonzero

theorem getNextPrunedBlockHeight_of_other
    (small : blockHeight + cryptonotePruningTipBlocks < 2 ^ 64)
    (old : blockHeight + cryptonotePruningTipBlocks < blockchainHeight)
    (other : stripeIndex logStripes blockHeight ≠ stripe - 1) :
    getNextPrunedBlockHeight blockHeight blockchainHeight pruningSeed = some blockHeight := by
  have pos := seed.stripe_pos
  have tip := isPruningTip_iff blockchainHeight small
  unfold getNextPrunedBlockHeight
  simp only [seed.getPruningStripe_eq nonzero, seed.seedLogStripes_eq nonzero, stripeOfBlock_eq]
  rw [if_neg (by rw [tip]; omega), if_pos (by omega)]

variable (bounded : blockchainHeight ≤ cryptonoteMaxBlockNumber + 1)
  (own : stripeIndex logStripes blockHeight = stripe - 1)

include bounded own

theorem hasUnprunedBlock_of_own {height : Nat} (above : blockHeight ≤ height)
    (below : height < blockchainHeight)
    (early : height <
      (blockHeight / cryptonotePruningStripeSize + 1) * cryptonotePruningStripeSize) :
    hasUnprunedBlock height blockchainHeight pruningSeed = true := by
  have lower := Nat.div_le_div_right (c := cryptonotePruningStripeSize) above
  have upper := (Nat.div_lt_iff_lt_mul (by decide)).mpr early
  have same : height / cryptonotePruningStripeSize =
      blockHeight / cryptonotePruningStripeSize := by omega
  rw [hasUnprunedBlock_iff_of_le seed nonzero bounded below.le, stripeIndex, same]
  exact .inr own

variable (old : blockHeight + cryptonotePruningTipBlocks < blockchainHeight)

include old

theorem getNextPrunedBlockHeight_of_own :
    getNextPrunedBlockHeight blockHeight blockchainHeight pruningSeed =
      some (min ((blockHeight / cryptonotePruningStripeSize + 1) * cryptonotePruningStripeSize)
        (blockchainHeight - cryptonotePruningTipBlocks)) := by
  have pos := seed.stripe_pos
  have several := seed.logStripes_pos nonzero
  have maximum : cryptonoteMaxBlockNumber = 500000000 := rfl
  have tip := isPruningTip_iff blockchainHeight
    (by omega : blockHeight + cryptonotePruningTipBlocks < 2 ^ 64)
  have stripeOf : stripeOfBlock blockHeight logStripes = stripe := by
    rw [stripeOfBlock_eq]
    omega
  have nextSeed : IsSeed (1 + stripe % 2 ^ logStripes) logStripes
      (128 * logStripes + stripe % 2 ^ logStripes) := by
    exact ⟨seed.logStripes_le, by omega, by omega, by omega⟩
  have follows : 1 + stripe % 2 ^ logStripes - 1 =
      (blockHeight / cryptonotePruningStripeSize + 1) % 2 ^ logStripes := by
    rw [← Nat.mod_add_mod, ← stripeIndex, own, Nat.sub_add_cancel pos, Nat.add_sub_cancel_left]
  obtain ⟨apart, start⟩ := nextStripeStart_succ nextSeed several follows
  unfold getNextPrunedBlockHeight
  simp only [seed.getPruningStripe_eq nonzero, seed.seedLogStripes_eq nonzero, stripeOf]
  rw [if_neg (by rw [tip]; omega), if_neg (not_not.mpr rfl), Nat.one_shiftLeft,
    Nat.and_two_pow_sub_one_eq_mod, makePruningSeed_eq_some_iff.mpr nextSeed,
    Option.map_some, getNextUnprunedBlockHeight_of_pruned nextSeed (by omega)
      bounded old apart, start]

theorem isNextPruned_own_iff : IsNextPruned blockHeight blockchainHeight pruningSeed
        (min ((blockHeight / cryptonotePruningStripeSize + 1) * cryptonotePruningStripeSize)
          (blockchainHeight - cryptonotePruningTipBlocks)) ↔
      nextStripeIsOld blockHeight blockchainHeight = true := by
  have tipBlocks : cryptonotePruningTipBlocks = 5500 := rfl
  have sizePos : 0 < cryptonotePruningStripeSize := by decide
  have kept := fun {height} => @hasUnprunedBlock_iff_of_le _ _ _ height _ seed nonzero bounded
  have start := (Nat.div_lt_iff_lt_mul sizePos).mp
    (Nat.lt_succ_self (blockHeight / cryptonotePruningStripeSize))
  have before := fun {height} => @hasUnprunedBlock_of_own _ _ _ _ _ seed nonzero bounded own height
  have quotient := Nat.mul_div_cancel (blockHeight / cryptonotePruningStripeSize + 1) sizePos
  have two : 2 ≤ 2 ^ logStripes := Nat.le_self_pow (seed.logStripes_pos nonzero).ne' 2
  have leaves := succ_mod_ne two (blockHeight / cryptonotePruningStripeSize)
  rw [nextStripeIsOld, decide_eq_true_iff]
  generalize (blockHeight / cryptonotePruningStripeSize + 1) *
    cryptonotePruningStripeSize = next at start before quotient ⊢
  rcases lt_or_ge (next + cryptonotePruningTipBlocks) blockchainHeight with oldNext | recentNext
  · have pruned : hasUnprunedBlock next blockchainHeight pruningSeed = false := by
      rw [← Bool.not_eq_true, kept (by omega), ← own, stripeIndex, stripeIndex, quotient]
      omega
    rw [min_eq_left (by omega)]
    refine ⟨fun _ => oldNext, fun _ => .inl ⟨⟨start.le, by omega, pruned⟩, ?_⟩⟩
    rintro height ⟨above, below, heightPruned⟩
    by_contra early
    rw [before above below (by omega)] at heightPruned
    cases heightPruned
  · have all : ∀ height, blockHeight ≤ height → height < blockchainHeight →
        hasUnprunedBlock height blockchainHeight pruningSeed = true := by
      intro height above below
      rcases lt_or_ge height next with early | late
      · exact before above below early
      · exact (kept below.le).mpr (.inl (by omega))
    rw [isNextPruned_of_all_full all]
    omega

end Pruned

/-- `get_next_pruned_block_height` gives the next pruned height, or the end of the chain, exactly
when nothing is pruned, the height is in the tip or another stripe, or the next stripe begins before
the tip. -/
theorem getNextPrunedBlockHeight_isNextPruned_iff
    {stripe logStripes pruningSeed : Nat} (blockHeight blockchainHeight : Nat)
    (made : makePruningSeed stripe logStripes = some pruningSeed)
    (bounded : blockchainHeight ≤ cryptonoteMaxBlockNumber + 1)
    (inside : blockHeight ≤ blockchainHeight) :
    (∃ result, getNextPrunedBlockHeight blockHeight blockchainHeight pruningSeed = some result ∧
      IsNextPruned blockHeight blockchainHeight pruningSeed result) ↔
    (pruningSeed = 0 ∨ isPruningTip blockHeight blockchainHeight = true ∨
      stripeOfBlock blockHeight logStripes ≠ stripe ∨
      nextStripeIsOld blockHeight blockchainHeight = true) := by
  have maximum : cryptonoteMaxBlockNumber = 500000000 := rfl
  have tipBlocks : cryptonotePruningTipBlocks = 5500 := rfl
  have seed := makePruningSeed_eq_some_iff.mp made
  have positive := seed.stripe_pos
  have nothing : (∀ height, blockHeight ≤ height → height < blockchainHeight →
      hasUnprunedBlock height blockchainHeight pruningSeed = true) →
      getNextPrunedBlockHeight blockHeight blockchainHeight pruningSeed = some blockchainHeight →
      ∃ result, getNextPrunedBlockHeight blockHeight blockchainHeight pruningSeed = some result ∧
        IsNextPruned blockHeight blockchainHeight pruningSeed result :=
    fun all computed => ⟨_, computed, (isNextPruned_of_all_full all).mpr rfl⟩
  rcases eq_zero_or_pos pruningSeed with rfl | nonzero
  · refine ⟨fun _ => .inl rfl, fun _ => nothing ?_ ?_⟩
    · exact fun height _ _ => hasUnprunedBlock_zero _ _
    · exact getNextPrunedBlockHeight_zero _ _
  have tip := isPruningTip_iff blockchainHeight
    (by omega : blockHeight + cryptonotePruningTipBlocks < 2 ^ 64)
  by_cases recent : isPruningTip blockHeight blockchainHeight = true
  · refine ⟨fun _ => .inr (.inl recent), fun _ => nothing ?_ ?_⟩
    · intro height above below
      rw [hasUnprunedBlock_iff seed (by omega) (by omega)]
      have := tip.mp recent
      exact .inl (by omega)
    · rw [getNextPrunedBlockHeight, if_pos (.inr recent)]
  have old := mt tip.mpr recent
  push Not at old
  rw [stripeOfBlock_eq]
  by_cases own : stripeIndex logStripes blockHeight = stripe - 1
  · rw [getNextPrunedBlockHeight_of_own seed (by omega) bounded own old]
    simp
    rw [isNextPruned_own_iff seed (by omega) bounded own old, own]
    have same : stripe - 1 + 1 = stripe := by omega
    simp [recent, same, nonzero.ne']
  · rw [getNextPrunedBlockHeight_of_other seed (by omega) (by omega) old own]
    refine ⟨fun _ => .inr (.inr (.inl (by omega))), fun _ => ⟨_, rfl, .inl ?_⟩⟩
    have pruned : hasUnprunedBlock blockHeight blockchainHeight pruningSeed =
        false := by
      rw [← Bool.not_eq_true, hasUnprunedBlock_iff seed (by omega) (by omega)]
      omega
    exact ⟨⟨le_rfl, by omega, pruned⟩, fun height above => above.1⟩

theorem firstStripe_isNextPruned : ∃ result, getNextPrunedBlockHeight 1 10000000 384 = some result ∧
      IsNextPruned 1 10000000 384 result :=
  (getNextPrunedBlockHeight_isNextPruned_iff 1 10000000
    (by decide : makePruningSeed 1 3 = some 384) (by decide) (by decide)).mpr (by decide)

/-- In a chain of 6000 blocks, a node with the first of eight stripes is told that block 500 is
pruned. -/
theorem getNextPrunedBlockHeight_not_isNextPruned :
    makePruningSeed 1 3 = some 384 ∧ getNextPrunedBlockHeight 0 6000 384 = some 500 ∧
      hasUnprunedBlock 500 6000 384 = true ∧ ¬IsNextPruned 0 6000 384 500 := by
  have full : hasUnprunedBlock 500 6000 384 = true := by decide
  refine ⟨by decide, by decide, full, ?_⟩
  rintro (⟨⟨-, -, pruned⟩, -⟩ | ⟨same, -⟩)
  · rw [full] at pruned
    cases pruned
  · cases same

end LodeChain

import LodeChain.WrappedArithmetic
import LodeChain.TxExtra
import Mathlib.Data.List.GetD

/-!
# Merge mining

`on_add_aux_pow` puts the root of a tree of hashes into the miner transaction of a template.
-/

namespace LodeChain

open List

structure HashOps (Digest : Type) where
  zero : Digest
  fast : Digest → Digest → Digest

namespace TreeHash

variable {Digest : Type}

def doubleUntil (count : Nat) : Nat → Nat → Nat
  | 0, pow => pow
  | fuel + 1, pow => if pow < count then doubleUntil count fuel (2 * pow) else pow

def treeHashCnt (count : Nat) : Nat :=
  doubleUntil count count 2 / 2

def whileAboveTwo {State : Type} (level : Nat → State → State) : Nat → Nat → State → State
  | 0, _, state => state
  | fuel + 1, cnt, state =>
    if 2 < cnt then whileAboveTwo level fuel (cnt / 2) (level (cnt / 2) state)
    else state

variable (ops : HashOps Digest)

/-- The pairs are read from `hashes` at the first level and from the written memory at the others.
-/
def hashLevel (read : (Nat → Digest) → Nat → Digest)
    (base pairs : Nat) (ints : Nat → Digest) : Nat → Digest :=
  (List.range pairs).foldl (fun ints pair => Function.update ints (base + pair)
      (ops.fast (read ints (base + 2 * pair)) (read ints (base + 2 * pair + 1)))) ints

def pushBit (path bit : Nat) : Nat :=
  ((path <<< 1) ||| bit) % 2 ^ 32

structure Tracked where
  idx : Nat
  path : Nat

def Tracked.meet (tracked : Tracked) (i j : Nat) : Tracked :=
  if tracked.idx = i ∨ tracked.idx = i + 1 then
    ⟨j, pushBit tracked.path (if tracked.idx = i then 0 else 1)⟩
  else tracked

def pathLevel (base pairs : Nat) (tracked : Tracked) : Tracked :=
  (List.range pairs).foldl (fun tracked pair =>
    tracked.meet (base + 2 * pair) (base + pair)) tracked

structure BranchState (Digest : Type) where
  ints : Nat → Digest
  tracked : Tracked
  branch : List Digest

def branchLevel (read : (Nat → Digest) → Nat → Digest)
    (base pairs : Nat) (state : BranchState Digest) : BranchState Digest :=
  (List.range pairs).foldl (fun state pair =>
    let i := base + 2 * pair
    let j := base + pair
    { ints := Function.update state.ints j (ops.fast (read state.ints i) (read state.ints (i + 1)))
      tracked := state.tracked.meet i j
      branch := if state.tracked.idx = i ∨ state.tracked.idx = i + 1 then
          state.branch ++ [read state.ints (if state.tracked.idx = i then i + 1 else i)]
        else state.branch }) state

def leaf (hashes : List Digest) (i : Nat) : Digest :=
  hashes.getD i ops.zero

def copied (hashes : List Digest) (copies : Nat) (i : Nat) : Digest :=
  if i < copies then leaf ops hashes i else ops.zero

def treeHash (hashes : List Digest) : Digest :=
  match hashes with
  | [] => ops.zero
  | [hash] => hash
  | [left, right] => ops.fast left right
  | _ =>
    let count := hashes.length
    let cnt := treeHashCnt count
    let base := 2 * cnt - count
    let first := hashLevel ops (fun _ => leaf ops hashes) base (cnt - base) (copied ops hashes base)
    let ints := whileAboveTwo (hashLevel ops id 0) cnt cnt first
    ops.fast (ints 0) (ints 1)

def treePath (count idx : Nat) : Option Nat :=
  if count = 0 then none
  else if count = 1 then some 0
  else if count = 2 then some (if idx = 0 then 0 else 1)
  else
    let cnt := treeHashCnt count
    let base := 2 * cnt - count
    let first := pathLevel base (cnt - base) ⟨idx, 0⟩
    let last := whileAboveTwo (pathLevel 0) cnt cnt first
    some (last.meet 0 0).path

/-- What `tree_branch` returns; the depth is the length of the branch. -/
structure Branch (Digest : Type) where
  branch : List Digest
  path : Nat

def BranchState.finish (state : BranchState Digest) : Branch Digest where
  branch := if state.tracked.idx = 0 ∨ state.tracked.idx = 1 then
      state.branch ++ [state.ints (if state.tracked.idx = 0 then 1 else 0)]
    else state.branch
  path := (state.tracked.meet 0 0).path

def treeBranch [DecidableEq Digest] (ops : HashOps Digest)
    (hashes : List Digest) (hash : Digest) : Option (Branch Digest) :=
  let count := hashes.length
  let idx := hashes.idxOf hash
  if count = 0 ∨ idx = count then none
  else if count = 1 then some ⟨[], 0⟩
  else if count = 2 then
    some ⟨[leaf ops hashes (if idx = 0 then 1 else 0)], if idx = 0 then 0 else 1⟩
  else
    let cnt := treeHashCnt count
    let base := 2 * cnt - count
    let first := branchLevel ops (fun _ => leaf ops hashes) base (cnt - base)
      ⟨copied ops hashes base, ⟨idx, 0⟩, []⟩
    some (whileAboveTwo (branchLevel ops id 0) cnt cnt first).finish

/-- The bit for a sibling is the one with as many bits below it as there are siblings left. -/
def treeBranchHash (ops : HashOps Digest) (path : Nat) : Digest → List Digest → Digest
  | part, [] => part
  | part, sibling :: rest =>
    treeBranchHash ops path (if path.testBit rest.length then ops.fast sibling part
        else ops.fast part sibling) rest

def isBranchInTree [DecidableEq Digest] (ops : HashOps Digest)
    (hash root : Digest) (branch : List Digest) (path : Nat) : Bool :=
  treeBranchHash ops path hash branch = root

variable {count fuel exponent idx : Nat} {State : Type} {hashes : List Digest}

theorem doubleUntil_spec
    (below : 2 ^ exponent < count) (enough : count ≤ 2 ^ (exponent + 1 + fuel)) :
    ∃ last, doubleUntil count fuel (2 ^ (exponent + 1)) = 2 ^ (last + 1) ∧
      2 ^ last < count ∧ count ≤ 2 ^ (last + 1) := by
  induction fuel generalizing exponent with
  | zero => exact ⟨exponent, rfl, below, enough⟩
  | succ fuel ih =>
    rw [doubleUntil]
    split
    · rename_i grows
      rw [← pow_succ']
      exact ih grows (enough.trans_eq (by ring))
    · rename_i stops
      exact ⟨exponent, rfl, below, not_lt.mp stops⟩

theorem treeHashCnt_spec (three : 3 ≤ count) :
    ∃ exponent, treeHashCnt count = 2 ^ (exponent + 1) ∧
      2 ^ (exponent + 1) < count ∧ count ≤ 2 * 2 ^ (exponent + 1) := by
  have enough : count ≤ 2 ^ (0 + 1 + count) := by
    have : 0 + 1 + count < 2 ^ (0 + 1 + count) := Nat.lt_two_pow_self
    omega
  have below : 2 ^ 0 < count := by omega
  obtain ⟨last, doubled, below, above⟩ := doubleUntil_spec below enough
  cases last with
  | zero => simp at above; omega
  | succ exponent =>
    refine ⟨exponent, ?_, below, by rwa [← pow_succ']⟩
    rw [treeHashCnt, show (2 : Nat) = 2 ^ (0 + 1) from rfl, doubled, pow_succ]
    simp

section Levels

variable {ops : HashOps Digest} {read : (Nat → Digest) → Nat → Digest} {base : Nat}

def ReadsOnly (read : (Nat → Digest) → Nat → Digest) : Prop :=
  ∀ ints written value index, index ≠ written →
    read (Function.update ints written value) index = read ints index

theorem readsOnly_const (hashes : Nat → Digest) : ReadsOnly fun _ : Nat → Digest => hashes :=
  fun _ _ _ _ _ => rfl

theorem readsOnly_id : ReadsOnly (id : (Nat → Digest) → Nat → Digest) :=
  fun _ _ _ _ ne => Function.update_of_ne ne _ _

theorem hashLevel_succ (pairs : Nat) (ints : Nat → Digest) :
    hashLevel ops read base (pairs + 1) ints =
      Function.update (hashLevel ops read base pairs ints) (base + pairs)
        (ops.fast (read (hashLevel ops read base pairs ints) (base + 2 * pairs))
          (read (hashLevel ops read base pairs ints) (base + 2 * pairs + 1))) := by
  rw [hashLevel, range_succ, foldl_append]
  rfl

variable {pairs bit : Nat}

theorem read_hashLevel (local_ : ReadsOnly read) {index : Nat}
    (above : base + pairs ≤ index) (ints : Nat → Digest) :
    read (hashLevel ops read base pairs ints) index = read ints index := by
  induction pairs with
  | zero => rfl
  | succ pairs ih => rw [hashLevel_succ, local_ _ _ _ _ (by omega), ih (by omega)]

theorem hashLevel_apply (local_ : ReadsOnly read) (pairs : Nat)
    (ints : Nat → Digest) (index : Nat) :
    hashLevel ops read base pairs ints index = if base ≤ index ∧ index < base + pairs then
        ops.fast (read ints (base + 2 * (index - base))) (read ints (base + 2 * (index - base) + 1))
      else
        ints index := by
  induction pairs with
  | zero => rw [if_neg (by omega)]; rfl
  | succ pairs ih =>
    rw [hashLevel_succ]
    by_cases last : index = base + pairs
    · subst last
      rw [Function.update_self, read_hashLevel local_ (by omega),
        read_hashLevel local_ (by omega), if_pos (by omega),
        Nat.add_sub_cancel_left]
    · rw [Function.update_of_ne last, ih]
      by_cases lt : base ≤ index ∧ index < base + pairs
      · rw [if_pos lt, if_pos (by omega)]
      · rw [if_neg lt, if_neg (by omega)]

theorem pathLevel_succ (pairs : Nat) (tracked : Tracked) : pathLevel base (pairs + 1) tracked =
      (pathLevel base pairs tracked).meet (base + 2 * pairs) (base + pairs) := by
  rw [pathLevel, range_succ, foldl_append]
  rfl

theorem pathLevel_eq (pairs : Nat) (tracked : Tracked) :
    pathLevel base pairs tracked = if base ≤ tracked.idx ∧ tracked.idx < base + 2 * pairs then
        ⟨base + (tracked.idx - base) / 2, pushBit tracked.path ((tracked.idx - base) % 2)⟩
      else
        tracked := by
  induction pairs with
  | zero => rw [if_neg (by omega)]; rfl
  | succ pairs ih =>
    rw [pathLevel_succ, ih]
    by_cases before : base ≤ tracked.idx ∧ tracked.idx < base + 2 * pairs
    · rw [if_pos before, if_pos (by omega)]
      exact if_neg (by dsimp only; omega)
    · rw [if_neg before, Tracked.meet]
      by_cases even : tracked.idx = base + 2 * pairs
      · rw [if_pos (.inl even), if_pos even, if_pos (by omega)]
        congr 2 <;> omega
      · by_cases odd : tracked.idx = base + 2 * pairs + 1
        · rw [if_pos (.inr odd), if_neg even, if_pos (by omega)]
          congr 2 <;> omega
        · rw [if_neg (by omega), if_neg (by omega)]

theorem branchLevel_succ (pairs : Nat) (state : BranchState Digest) :
    branchLevel ops read base (pairs + 1) state =
      let before := branchLevel ops read base pairs state
      let i := base + 2 * pairs
      { ints := Function.update before.ints (base + pairs)
          (ops.fast (read before.ints i) (read before.ints (i + 1)))
        tracked := before.tracked.meet i (base + pairs)
        branch := if before.tracked.idx = i ∨ before.tracked.idx = i + 1 then
            before.branch ++ [read before.ints (if before.tracked.idx = i then i + 1 else i)]
          else
            before.branch } := by
  rw [branchLevel, range_succ, foldl_append]
  rfl

@[simp]
theorem ints_branchLevel (pairs : Nat) (state : BranchState Digest) :
    (branchLevel ops read base pairs state).ints = hashLevel ops read base pairs state.ints := by
  induction pairs with
  | zero => rfl
  | succ pairs ih => rw [branchLevel_succ, hashLevel_succ, ← ih]

@[simp]
theorem tracked_branchLevel (pairs : Nat) (state : BranchState Digest) :
    (branchLevel ops read base pairs state).tracked = pathLevel base pairs state.tracked := by
  induction pairs with
  | zero => rfl
  | succ pairs ih => rw [branchLevel_succ, pathLevel_succ, ← ih]

theorem branch_branchLevel (local_ : ReadsOnly read) (pairs : Nat) (state : BranchState Digest) :
    (branchLevel ops read base pairs state).branch =
      if base ≤ state.tracked.idx ∧ state.tracked.idx < base + 2 * pairs then
        state.branch ++ [read state.ints
          (if (state.tracked.idx - base) % 2 = 0 then state.tracked.idx + 1
            else state.tracked.idx - 1)]
      else
        state.branch := by
  induction pairs with
  | zero => rw [if_neg (by omega)]; rfl
  | succ pairs ih =>
    rw [branchLevel_succ]
    dsimp only
    rw [ih, tracked_branchLevel, ints_branchLevel, pathLevel_eq]
    by_cases before : base ≤ state.tracked.idx ∧ state.tracked.idx < base + 2 * pairs
    · have apart : ¬ (base + (state.tracked.idx - base) / 2 = base + 2 * pairs ∨
          base + (state.tracked.idx - base) / 2 = base + 2 * pairs + 1) := by
        omega
      have after : base ≤ state.tracked.idx ∧ state.tracked.idx < base + 2 * (pairs + 1) := by omega
      rw [if_pos before, if_pos before, if_neg apart, if_pos after]
    · rw [if_neg before, if_neg before]
      by_cases even : state.tracked.idx = base + 2 * pairs
      · rw [if_pos (.inl even), if_pos even, if_pos (by omega),
          if_pos (by omega), read_hashLevel local_ (by omega), even]
      · by_cases odd : state.tracked.idx = base + 2 * pairs + 1
        · rw [if_pos (.inr odd), if_neg even, if_pos (by omega),
            if_neg (by omega), read_hashLevel local_ (by omega), odd,
            Nat.add_sub_cancel]
        · rw [if_neg (by omega), if_neg (by omega)]

theorem branchLevel_eq (pairs : Nat) (state : BranchState Digest) :
    branchLevel ops read base pairs state = ⟨hashLevel ops read base pairs state.ints,
      pathLevel base pairs state.tracked, (branchLevel ops read base pairs state).branch⟩ := by
  rw [← ints_branchLevel, ← tracked_branchLevel]

theorem pushBit_eq {path depth : Nat} (small : path < 2 ^ depth)
    (short : depth ≤ 31) (isBit : bit < 2) : pushBit path bit = 2 * path + bit := by
  have room : 2 ^ depth ≤ 2 ^ 31 := Nat.pow_le_pow_right (by omega) short
  rw [pushBit, ← Nat.shiftLeft_add_eq_or_of_lt (by simpa using isBit)]
  omega

theorem treeBranchHash_append (part sibling : Digest) (branch : List Digest)
    (path : Nat) (isBit : bit < 2) :
    treeBranchHash ops (2 * path + bit) part (branch ++ [sibling]) =
      if bit = 1 then ops.fast sibling (treeBranchHash ops path part branch)
      else ops.fast (treeBranchHash ops path part branch) sibling := by
  induction branch generalizing part with
  | nil =>
    have last : (2 * path + bit).testBit 0 = decide (bit = 1) := by
      rw [Nat.testBit_zero]
      congr 1
      exact propext ⟨fun odd => by omega, fun one => by omega⟩
    simp [treeBranchHash, last]
  | cons first rest ih =>
    have shifted : (2 * path + bit).testBit (rest ++ [sibling]).length =
        path.testBit rest.length := by
      rw [length_append, length_singleton, Nat.testBit_succ]
      congr 1
      omega
    rw [cons_append, treeBranchHash, shifted, ih]
    rfl

/-- The branch so far leads from the hash to the tracked node of a level. -/
structure Leads (ops : HashOps Digest) (hash : Digest) (nodes depth : Nat)
    (state : BranchState Digest) : Prop where
  inside : state.tracked.idx < nodes
  part : treeBranchHash ops state.tracked.path hash state.branch = state.ints state.tracked.idx
  path : state.tracked.path < 2 ^ state.branch.length
  depth : state.branch.length ≤ depth

variable {hash : Digest} {nodes depth : Nat} {state : BranchState Digest}

theorem Leads.push {sibling node : Digest} {ints : Nat → Digest}
    (part : treeBranchHash ops state.tracked.path hash state.branch = node)
    (path : state.tracked.path < 2 ^ state.branch.length)
    (short : state.branch.length ≤ 31) (isBit : bit < 2)
    (hashed : ints idx = if bit = 1 then ops.fast sibling node else ops.fast node sibling)
    (lt : idx < nodes) :
    Leads ops hash nodes (state.branch.length + 1) ⟨ints, ⟨idx, pushBit state.tracked.path bit⟩,
        state.branch ++ [sibling]⟩ := by
  have pushed := pushBit_eq path short isBit
  refine ⟨lt, ?_, ?_, by simp⟩
  · dsimp only
    rw [pushed, treeBranchHash_append _ _ _ _ isBit, part, hashed]
  · dsimp only
    rw [length_append, length_singleton]
    omega

theorem branchLevel_state (local_ : ReadsOnly read) (state : BranchState Digest)
    (met : base ≤ state.tracked.idx ∧ state.tracked.idx < base + 2 * pairs) :
    branchLevel ops read base pairs state = ⟨hashLevel ops read base pairs state.ints,
        ⟨base + (state.tracked.idx - base) / 2,
          pushBit state.tracked.path ((state.tracked.idx - base) % 2)⟩,
        state.branch ++ [read state.ints
          (if (state.tracked.idx - base) % 2 = 0 then state.tracked.idx + 1
            else state.tracked.idx - 1)]⟩ := by
  rw [branchLevel_eq, branch_branchLevel local_, pathLevel_eq, if_pos met, if_pos met]

theorem branchLevel_unmet (local_ : ReadsOnly read) (state : BranchState Digest)
    (unmet : ¬ (base ≤ state.tracked.idx ∧ state.tracked.idx < base + 2 * pairs)) :
    branchLevel ops read base pairs state =
      ⟨hashLevel ops read base pairs state.ints, state.tracked, state.branch⟩ := by
  rw [branchLevel_eq, branch_branchLevel local_, pathLevel_eq, if_neg unmet, if_neg unmet]

theorem hashLevel_pair (local_ : ReadsOnly read)
    (ints : Nat → Digest) (met : base ≤ idx ∧ idx < base + 2 * pairs) :
    hashLevel ops read base pairs ints (base + (idx - base) / 2) = if (idx - base) % 2 = 1 then
        ops.fast (read ints (if (idx - base) % 2 = 0 then idx + 1 else idx - 1)) (read ints idx)
      else
        ops.fast (read ints idx)
          (read ints (if (idx - base) % 2 = 0 then idx + 1 else idx - 1)) := by
  rw [hashLevel_apply local_, if_pos (by omega), Nat.add_sub_cancel_left]
  rcases Nat.mod_two_eq_zero_or_one (idx - base) with even | odd
  · have left : base + 2 * ((idx - base) / 2) = idx := by omega
    rw [even, if_neg (by omega), if_pos rfl, left]
  · have left : base + 2 * ((idx - base) / 2) = idx - 1 := by omega
    have right : idx - 1 + 1 = idx := by omega
    rw [odd, if_pos rfl, if_neg (by omega), left, right]

theorem leads_branchLevel (local_ : ReadsOnly read)
    (met : base ≤ state.tracked.idx ∧ state.tracked.idx < base + 2 * pairs)
    (part : treeBranchHash ops state.tracked.path hash state.branch =
      read state.ints state.tracked.idx) (path : state.tracked.path < 2 ^ state.branch.length)
    (deeper : state.branch.length < depth) (short : depth ≤ 32)
    (lt : base + (state.tracked.idx - base) / 2 < nodes) :
    Leads ops hash nodes depth (branchLevel ops read base pairs state) := by
  rw [branchLevel_state local_ state met]
  have pushed := Leads.push part path (by omega) (Nat.mod_lt _ (by omega))
    (hashLevel_pair local_ _ met) lt
  exact ⟨pushed.inside, pushed.part, pushed.path, pushed.depth.trans deeper⟩

theorem Leads.branchLevel (leads : Leads ops hash (2 * nodes) depth state) (short : depth ≤ 31) :
    Leads ops hash nodes (depth + 1) (TreeHash.branchLevel ops id 0 nodes state) := by
  obtain ⟨lt, part, path, deep⟩ := leads
  exact leads_branchLevel readsOnly_id (by omega) part path (by omega) (by omega) (by omega)

theorem leads_first {hashes : List Digest} {idx cnt : Nat} (fewer : cnt < hashes.length)
    (enough : hashes.length ≤ 2 * cnt) (lt : idx < hashes.length) :
    Leads ops (leaf ops hashes idx) cnt 1
      (branchLevel ops (fun _ => leaf ops hashes) (2 * cnt - hashes.length)
        (cnt - (2 * cnt - hashes.length))
        ⟨copied ops hashes (2 * cnt - hashes.length), ⟨idx, 0⟩, []⟩) := by
  have local_ : ReadsOnly fun _ : Nat → Digest => leaf ops hashes := readsOnly_const _
  by_cases above : 2 * cnt - hashes.length ≤ idx
  · refine leads_branchLevel local_ ?_ rfl one_pos one_pos (by decide) ?_
    · change _ ≤ idx ∧ idx < _
      omega
    · change 2 * cnt - hashes.length + (idx - (2 * cnt - hashes.length)) / 2 < cnt
      omega
  · rw [branchLevel_unmet local_ _ fun met => above met.1]
    refine ⟨?_, ?_, one_pos, Nat.zero_le _⟩
    · change idx < cnt
      omega
    · change leaf ops hashes idx = hashLevel ops _ _ _ _ idx
      rw [hashLevel_apply local_, if_neg (by omega)]
      exact (if_pos (by omega)).symm

end Levels

theorem whileAboveTwo_two (level : Nat → State → State)
    (fuel : Nat) (state : State) : whileAboveTwo level fuel 2 state = state := by
  cases fuel <;> rfl

theorem whileAboveTwo_double (level : Nat → State → State)
    {cnt : Nat} (two : 2 ≤ cnt) (state : State) :
    whileAboveTwo level (fuel + 1) (2 * cnt) state =
      whileAboveTwo level fuel cnt (level cnt state) := by
  have half : 2 * cnt / 2 = cnt := Nat.mul_div_cancel_left cnt (by omega)
  rw [whileAboveTwo, if_pos (by omega), half]

theorem whileAboveTwo_map {Whole Part : Type} (view : Whole → Part)
    {level : Nat → Whole → Whole} {partLevel : Nat → Part → Part}
    (commutes : ∀ cnt state, view (level cnt state) = partLevel cnt (view state))
    (fuel cnt : Nat) (state : Whole) :
    view (whileAboveTwo level fuel cnt state) = whileAboveTwo partLevel fuel cnt (view state) := by
  induction fuel generalizing cnt state with
  | zero => rfl
  | succ fuel ih =>
    rw [whileAboveTwo, whileAboveTwo]
    split
    · rw [ih, commutes]
    · rfl

section Trees

variable {ops : HashOps Digest} {hash : Digest} {state : BranchState Digest}

theorem Leads.whileAboveTwo {depth : Nat} (leads : Leads ops hash (2 ^ (exponent + 1)) depth state)
    (short : depth + exponent ≤ 31) (enough : exponent ≤ fuel) : Leads ops hash 2 (depth + exponent)
      (TreeHash.whileAboveTwo (TreeHash.branchLevel ops id 0) fuel (2 ^ (exponent + 1)) state) := by
  induction exponent generalizing depth fuel state with
  | zero =>
    rw [pow_one, whileAboveTwo_two]
    exact leads
  | succ exponent ih =>
    obtain ⟨less, rfl⟩ : ∃ less, fuel = less + 1 := ⟨fuel - 1, by omega⟩
    have two : 2 ≤ 2 ^ (exponent + 1) := by
      have := Nat.one_le_two_pow (n := exponent)
      omega
    rw [pow_succ' 2] at leads ⊢
    rw [whileAboveTwo_double _ two, show depth + (exponent + 1) = depth + 1 + exponent by omega]
    exact ih (leads.branchLevel (by omega)) (by omega) (by omega)

theorem Leads.finish {depth : Nat} (leads : Leads ops hash 2 depth state) (short : depth ≤ 31) :
    treeBranchHash ops state.finish.path hash state.finish.branch =
      ops.fast (state.ints 0) (state.ints 1) := by
  obtain ⟨lt, part, path, deep⟩ := leads
  have last : state.tracked.idx = 0 ∨ state.tracked.idx = 1 := by omega
  rw [BranchState.finish, Tracked.meet]
  rw [if_pos last, if_pos last]
  rw [pushBit_eq path (by omega) (by split <;> omega),
    treeBranchHash_append _ _ _ _ (by split <;> omega), part]
  rcases last with left | right
  · rw [left]
    rfl
  · rw [right]
    rfl

variable [DecidableEq Digest]

theorem leaf_idxOf (mem : hash ∈ hashes) : leaf ops hashes (hashes.idxOf hash) = hash := by
  have lt := idxOf_lt_length_of_mem mem
  rw [leaf, getD_eq_getElem _ _ lt, getElem_idxOf]

omit [DecidableEq Digest] in
theorem treeHash_many (three : 3 ≤ hashes.length) : treeHash ops hashes =
      let cnt := treeHashCnt hashes.length
      let base := 2 * cnt - hashes.length
      let first := hashLevel ops (fun _ => leaf ops hashes) base (cnt - base)
        (copied ops hashes base)
      let ints := whileAboveTwo (hashLevel ops id 0) cnt cnt first
      ops.fast (ints 0) (ints 1) := by
  match hashes, three with
  | _ :: _ :: _ :: _, _ => rfl

theorem treeBranch_many (three : 3 ≤ hashes.length)
    (bounded : hashes.length ≤ 2 ^ 28) (mem : hash ∈ hashes) :
    ∃ found, treeBranch ops hashes hash = some found ∧
      treeBranchHash ops found.path hash found.branch = treeHash ops hashes ∧
      some found.path = treePath hashes.length (hashes.idxOf hash) := by
  have lt := idxOf_lt_length_of_mem mem
  obtain ⟨exponent, cnt, fewer, enough⟩ := treeHashCnt_spec three
  have small : exponent ≤ 27 := by
    by_contra large
    have : 2 ^ 28 ≤ 2 ^ (exponent + 1) := Nat.pow_le_pow_right (by omega) (by omega)
    omega
  have fuel : exponent ≤ 2 ^ (exponent + 1) := by
    have : exponent + 1 < 2 ^ (exponent + 1) := Nat.lt_two_pow_self
    omega
  have last := (@leads_first _ ops _ _ _ fewer enough lt).whileAboveTwo (by omega) fuel
  rw [leaf_idxOf mem] at last
  unfold treeBranch
  rw [if_neg (by omega), if_neg (by omega), if_neg (by omega), cnt]
  refine ⟨_, rfl, ?_, ?_⟩
  · rw [last.finish (by omega), treeHash_many three, cnt]
    rw [whileAboveTwo_map BranchState.ints
      (fun cnt state => ints_branchLevel cnt state), ints_branchLevel]
  · unfold treePath
    rw [if_neg (by omega), if_neg (by omega), if_neg (by omega), cnt]
    rw [BranchState.finish]
    rw [whileAboveTwo_map BranchState.tracked
      (fun cnt state => tracked_branchLevel cnt state), tracked_branchLevel]

/-- A branch leads from each hash to the root, along the path to the first place of the hash. -/
theorem treeBranch_spec (ops : HashOps Digest) {hashes : List Digest}
    (bounded : hashes.length ≤ 2 ^ 28) (member : hash ∈ hashes) :
    ∃ found, treeBranch ops hashes hash = some found ∧
      treeBranchHash ops found.path hash found.branch = treeHash ops hashes ∧
      treePath hashes.length (hashes.idxOf hash) = some found.path := by
  match hashes, member with
  | [only], member =>
    obtain rfl := mem_singleton.mp member
    exact ⟨⟨[], 0⟩, by simp [treeBranch], rfl, rfl⟩
  | [left, right], member =>
    by_cases same : hash = left
    · subst same
      exact ⟨⟨[right], 0⟩, by simp [treeBranch, leaf], by
        simp [treeBranchHash, treeHash], by simp [treePath]⟩
    · have second : hash = right := by simpa [same] using member
      subst second
      have idx : [left, hash].idxOf hash = 1 := by
        have different : (left == hash) = false := by simpa using Ne.symm same
        simp [idxOf_cons, different]
      exact ⟨⟨[left], 1⟩, by simp [treeBranch, leaf, idx], by
        simp [treeBranchHash, treeHash], by simp [treePath, idx]⟩
  | first :: second :: third :: rest, member =>
    obtain ⟨found, branch, root, path⟩ :=
      treeBranch_many (by simp) bounded member
    exact ⟨found, branch, root, path.symm⟩

def numberOps : HashOps Nat :=
  ⟨0, fun left right => 1000 * left + right + 1⟩

theorem treeBranch_seven : (7 : Nat) ∈ [3, 1, 4, 7, 5, 7, 9] ∧
      ∃ found, treeBranch numberOps [3, 1, 4, 7, 5, 7, 9] 7 = some found ∧
        treeBranchHash numberOps found.path 7 found.branch =
          treeHash numberOps [3, 1, 4, 7, 5, 7, 9] ∧ treePath 7 3 = some found.path :=
  ⟨by decide, treeBranch_spec numberOps (by decide) (by decide)⟩

end Trees

end TreeHash

/-! ## Merge mining -/

open TxExtra Nat

namespace MergeMining

inductive Failure where
  | error (code : Int) (message : String)
  | thrown (message : String)
  deriving DecidableEq

def Failure.wrongParam (message : String) : Failure := .error (-1) message
def Failure.internalError (message : String) : Failure := .error (-5) message
def Failure.wrongBlockblob (message : String) : Failure := .error (-6) message

def expect {Result : Type} (failure : Failure) : Option Result → Except Failure Result
  | none => .error failure
  | some result => .ok result

theorem expect_bind_eq_ok_iff {First Second : Type} {failure : Failure}
    {found : Option First} {next : First → Except Failure Second} {result : Second} :
    (expect failure found >>= next) = .ok result ↔
      ∃ value, found = some value ∧ next value = .ok result := by
  cases found with
  | none => simp [expect, bind, Except.bind]
  | some value => simp [expect, bind, Except.bind]

theorem bind_eq_ok_iff {First Second : Type} {first : Except Failure First}
    {next : First → Except Failure Second} {result : Second} :
    (first >>= next) = .ok result ↔ ∃ value, first = .ok value ∧ next value = .ok result := by
  cases first with
  | error failure => simp [bind, Except.bind]
  | ok value => simp [bind, Except.bind]

def hashKeyMmSlot : UInt8 := 109

/-- `get_aux_slot`; the hash function of `sha256sum` is a parameter. -/
def getAuxSlot (sha256 : Bytes → Pod) (id : Pod) (nonce nAuxChains : Nat) : Except Failure Nat :=
  if 0 < nAuxChains then
    let res := sha256 (id.val ++ toLittleEndian 4 nonce ++ [hashKeyMmSlot])
    .ok (ofLittleEndian (res.val.take 4) % nAuxChains)
  else .error (.thrown "n_aux_chains is 0")

def getPathFromAuxSlot (slot nAuxChains : Nat) : Except Failure Nat :=
  if nAuxChains = 0 then .error (.thrown "n_aux_chains is 0")
  else if nAuxChains ≤ slot then .error (.thrown "slot >= n_aux_chains")
  else expect (.thrown "Failed to get path from aux slot") (TreeHash.treePath nAuxChains slot)

def countBits (nAuxChains : Nat) : Nat → Nat → Nat
  | 0, nBits => nBits
  | fuel + 1, nBits =>
    if 2 ^ nBits < nAuxChains ∧ nBits < 16 then countBits nAuxChains fuel (nBits + 1)
    else nBits

def encodeMmDepth (nAuxChains nonce : Nat) : Except Failure Nat :=
  if nAuxChains = 0 then .error (.thrown "n_aux_chains is 0")
  else
    let nBits := countBits nAuxChains 15 1
    .ok ((nBits - 1) ||| ((nAuxChains - 1) <<< 3 % 2 ^ 32) ||| (nonce <<< (3 + nBits) % 2 ^ 32))

def decodeMmDepth (depth : Nat) : Nat × Nat :=
  let nBits := 1 + (depth &&& 7)
  (1 + (depth >>> 3 &&& (2 ^ nBits - 1)), depth >>> (3 + nBits))

structure ParsedBlock (Rest : Type) where
  minerTxExtra : Bytes
  rest : Rest

structure Environment (Rest : Type) where
  hexToPod : String → Option Pod
  parseHexstrToBinbuff : String → Option Bytes
  parseAndValidateBlockFromBlob : Bytes → Option (ParsedBlock Rest)
  sha256 : Bytes → Pod
  hashOps : HashOps Pod

structure Request where
  blocktemplateBlob : String
  auxPow : List (String × String)

structure Response (Rest : Type) where
  blocktemplate : ParsedBlock Rest
  merkleRoot : Pod
  merkleTreeDepth : Nat
  auxPow : List (String × String)

variable {Rest : Type}

namespace Environment

variable (env : Environment Rest)

def parseAuxPow : List (String × String) → Except Failure (List (Pod × Pod))
  | [] => .ok []
  | entry :: entries => do
      let id ← expect (.wrongParam "Invalid aux pow id") (env.hexToPod entry.1)
      let hash ← expect (.wrongParam "Invalid aux pow hash") (env.hexToPod entry.2)
      let later ← parseAuxPow entries
      pure ((id, hash) :: later)

def collides (nonce count : Nat) : List Pod → List Bool → Except Failure Bool
  | [], _ => .ok false
  | id :: ids, slots => do
      let slot ← getAuxSlot env.sha256 id nonce (count % 2 ^ 32)
      if count ≤ slot then .error (.internalError "Computed slot is out of range")
      else if slots.getD slot false then .ok true
      else collides nonce count ids (slots.set slot true)

def searchNonce (ids : List Pod) : Nat → Nat → Except Failure Nat
  | 0, _ => .error (.internalError "Failed to find a suitable nonce")
  | left + 1, nonce => do
      let collision ← env.collides nonce ids.length ids (List.replicate ids.length false)
      if collision then searchNonce ids left (nonce + 1) else .ok nonce

def maxNonce : Nat := 65535

/-- `on_add_aux_pow` of a node that does not pass the request on to a bootstrap
daemon. -/
def onAddAuxPow (req : Request) : Except Failure (Response Rest) := do
  if req.auxPow = [] then .error (.wrongParam "Empty aux pow hash vector")
  else
    let merkleTreeDepth := 0
    let auxPow ← env.parseAuxPow req.auxPow
    let nonce ← env.searchNonce (auxPow.map Prod.fst) (maxNonce + 1) 0
    let merkleRoot := TreeHash.treeHash env.hashOps (auxPow.map Prod.snd)
    let encoded ← encodeMmDepth (auxPow.length % 2 ^ 32) nonce
    let blocktemplateBlob ← expect (.wrongParam "Invalid blocktemplate_blob")
      (env.parseHexstrToBinbuff req.blocktemplateBlob)
    let block ← expect (.wrongBlockblob "Wrong blocktemplate_blob")
      (env.parseAndValidateBlockFromBlob blocktemplateBlob)
    let cleared ← expect (.internalError "Error removing existing merkle root")
      (withoutField block.minerTxExtra .mergeMiningTag)
    let extra ← expect (.internalError "Error adding merkle root")
      (addMmMerkleRootToTxExtra cleared merkleRoot merkleTreeDepth)
    pure {
      blocktemplate := { block with minerTxExtra := extra }
      merkleRoot
      merkleTreeDepth := encoded
      auxPow := req.auxPow }

def template (req : Request) : Option (ParsedBlock Rest) :=
  (env.parseHexstrToBinbuff req.blocktemplateBlob).bind env.parseAndValidateBlockFromBlob

/-- The tag is readable, its depth gives the number of chains, and the hash is in its tree at the
path of its slot. -/
def Proves (res : Response Rest) (count : Nat) (id hash : Pod) : Prop :=
  ∃ depth root slot path branch,
    findMergeMiningTag res.blocktemplate.minerTxExtra = some (depth, root) ∧
      (decodeMmDepth depth).1 = count ∧
      getAuxSlot env.sha256 id (decodeMmDepth depth).2 (decodeMmDepth depth).1 = .ok slot ∧
      getPathFromAuxSlot slot (decodeMmDepth depth).1 = .ok path ∧
      TreeHash.isBranchInTree env.hashOps hash root branch path = true

variable {env}

theorem parseAuxPow_singleton {entry : String × String} {auxPow : List (Pod × Pod)}
    (parsed : env.parseAuxPow [entry] = .ok auxPow) :
    ∃ id hash, env.hexToPod entry.1 = some id ∧ env.hexToPod entry.2 = some hash ∧
      auxPow = [(id, hash)] := by
  obtain ⟨id, idParsed, afterId⟩ := expect_bind_eq_ok_iff.mp parsed
  obtain ⟨hash, hashParsed, afterHash⟩ := expect_bind_eq_ok_iff.mp afterId
  cases afterHash
  exact ⟨id, hash, idParsed, hashParsed, rfl⟩

theorem parseAuxPow_mem {entries : List (String × String)} {auxPow : List (Pod × Pod)}
    (parsed : env.parseAuxPow entries = .ok auxPow) {entry : String × String}
    (mem : entry ∈ entries) :
    ∃ id hash, env.hexToPod entry.1 = some id ∧ env.hexToPod entry.2 = some hash := by
  induction entries generalizing auxPow with
  | nil => cases mem
  | cons first entries ih =>
    obtain ⟨id, idParsed, afterId⟩ := expect_bind_eq_ok_iff.mp parsed
    obtain ⟨hash, hashParsed, afterHash⟩ := expect_bind_eq_ok_iff.mp afterId
    obtain ⟨later, laterParsed, -⟩ := bind_eq_ok_iff.mp afterHash
    rcases mem_cons.mp mem with rfl | inRest
    · exact ⟨id, hash, idParsed, hashParsed⟩
    · exact ih laterParsed inRest

theorem onAddAuxPow_eq_ok {req : Request} {res : Response Rest}
    (succeeds : env.onAddAuxPow req = .ok res) : ∃ auxPow block cleared, req.auxPow ≠ [] ∧
      env.parseAuxPow req.auxPow = .ok auxPow ∧ env.template req = some block ∧
      withoutField block.minerTxExtra .mergeMiningTag = some cleared ∧
      res.blocktemplate.minerTxExtra = cleared ++
        tagBytes (TreeHash.treeHash env.hashOps (auxPow.map Prod.snd)) 0 := by
  rw [onAddAuxPow] at succeeds
  split_ifs at succeeds with empty
  obtain ⟨auxPow, parsed, succeeds⟩ := bind_eq_ok_iff.mp succeeds
  obtain ⟨nonce, -, succeeds⟩ := bind_eq_ok_iff.mp succeeds
  obtain ⟨encoded, -, succeeds⟩ := bind_eq_ok_iff.mp succeeds
  obtain ⟨blob, blobParsed, succeeds⟩ := expect_bind_eq_ok_iff.mp succeeds
  obtain ⟨block, blockParsed, succeeds⟩ := expect_bind_eq_ok_iff.mp succeeds
  obtain ⟨cleared, removed, succeeds⟩ := expect_bind_eq_ok_iff.mp succeeds
  obtain ⟨extra, added, succeeds⟩ := expect_bind_eq_ok_iff.mp succeeds
  cases succeeds
  cases added
  exact ⟨auxPow, block, cleared, empty, parsed, by rw [template, blobParsed]; exact
    blockParsed, removed, rfl⟩

theorem proves_single {res : Response Rest} {id hash : Pod}
    (tag : findMergeMiningTag res.blocktemplate.minerTxExtra = some (0, hash)) :
    env.Proves res 1 id hash := by
  have slot : getAuxSlot env.sha256 id 0 1 = .ok 0 := by
    rw [getAuxSlot]
    simp [mod_one]
  exact ⟨0, hash, 0, 0, [], tag, rfl, slot, rfl, by simp [TreeHash.isBranchInTree,
    TreeHash.treeBranchHash]⟩

/-- The template proves all hashes exactly when there is a single chain and the given template has
no padding. -/
theorem onAddAuxPow_proves_iff {req : Request} {res : Response Rest}
    (succeeds : env.onAddAuxPow req = .ok res) :
    (∀ entry ∈ req.auxPow, ∀ id hash, env.hexToPod entry.1 = some id →
        env.hexToPod entry.2 = some hash → env.Proves res req.auxPow.length id hash) ↔
      req.auxPow.length = 1 ∧ ∀ block, env.template req = some block →
          hasPadding block.minerTxExtra = false := by
  obtain ⟨auxPow, block, cleared, nonempty, parsed, parsedBlock, removed, extra⟩ :=
    onAddAuxPow_eq_ok succeeds
  have found := findMergeMiningTag_append
    (TreeHash.treeHash env.hashOps (auxPow.map Prod.snd)) (show 0 < 32 by omega) removed
  rw [← extra] at found
  constructor
  · intro proves
    obtain ⟨entry, member⟩ := exists_mem_of_ne_nil _ nonempty
    obtain ⟨id, hash, idParsed, hashParsed⟩ := parseAuxPow_mem parsed member
    obtain ⟨depth, root, slot, path, branch, tag, count, -⟩ :=
      proves entry member id hash idParsed hashParsed
    rw [found] at tag
    split_ifs at tag with padded
    cases tag
    refine ⟨count.symm, ?_⟩
    intro other otherParsed
    rw [parsedBlock] at otherParsed
    cases otherParsed
    simpa using padded
  · rintro ⟨single, noPadding⟩ entry member id hash idParsed hashParsed
    obtain ⟨only, shape⟩ := length_eq_one_iff.mp single
    rw [shape] at parsed member
    obtain rfl := mem_singleton.mp member
    obtain ⟨onlyId, onlyHash, onlyIdParsed, onlyHashParsed, rfl⟩ := parseAuxPow_singleton parsed
    rw [hashParsed] at onlyHashParsed
    cases onlyHashParsed
    rw [noPadding block parsedBlock] at found
    rw [single]
    exact proves_single found

/-- The texts `a` and `b` stand for two hashes, and a slot is the first byte of an identity. -/
def sampleEnvironment : Environment Unit where
  hexToPod text := some ⟨List.replicate 32 (if text = "a" then 1 else 2), by simp⟩
  parseHexstrToBinbuff _ := some []
  parseAndValidateBlockFromBlob _ := some ⟨[], ()⟩
  sha256 bytes := ⟨List.replicate 32 (bytes.headD 0), by simp⟩
  hashOps := ⟨⟨List.replicate 32 0, by simp⟩, fun left _ => left⟩

def singleChain : Request := ⟨"", [("a", "b")]⟩

theorem singleChain_proves : ∃ res, sampleEnvironment.onAddAuxPow singleChain = .ok res ∧
      ∀ entry ∈ singleChain.auxPow, ∀ id hash, sampleEnvironment.hexToPod entry.1 = some id →
        sampleEnvironment.hexToPod entry.2 = some hash →
        sampleEnvironment.Proves res singleChain.auxPow.length id hash := by
  obtain ⟨res, succeeds⟩ : ∃ res, sampleEnvironment.onAddAuxPow singleChain = .ok res := ⟨_, rfl⟩
  refine ⟨res, succeeds, (onAddAuxPow_proves_iff succeeds).mpr ⟨rfl, ?_⟩⟩
  rintro block parsed
  cases parsed
  rfl

def twoChains : Request := ⟨"", [("a", "a"), ("b", "b")]⟩

theorem twoChains_not_proved : ∃ res, sampleEnvironment.onAddAuxPow twoChains = .ok res ∧
      ¬∀ entry ∈ twoChains.auxPow, ∀ id hash, sampleEnvironment.hexToPod entry.1 = some id →
        sampleEnvironment.hexToPod entry.2 = some hash →
        sampleEnvironment.Proves res twoChains.auxPow.length id hash := by
  refine ⟨_, rfl, ?_⟩
  intro proves
  obtain ⟨depth, root, slot, path, branch, tag, count, -⟩ :=
    proves _ mem_cons_self _ _ rfl rfl
  cases tag
  cases count

end Environment

/-! ## Packed depths -/

theorem countBits_spec (nAuxChains : Nat) {fuel nBits : Nat} (enough : fuel + nBits = 16) :
    (nAuxChains ≤ 2 ^ countBits nAuxChains fuel nBits ∨ countBits nAuxChains fuel nBits = 16) ∧
      (countBits nAuxChains fuel nBits = nBits ∨ nBits < countBits nAuxChains fuel nBits ∧
          2 ^ (countBits nAuxChains fuel nBits - 1) < nAuxChains) := by
  induction fuel generalizing nBits with
  | zero => exact ⟨.inr (by rw [countBits]; omega), .inl rfl⟩
  | succ fuel ih =>
    rw [countBits]
    split_ifs with more
    · obtain ⟨fits, reached | ⟨above, reached⟩⟩ := @ih (nBits + 1) (by omega)
      · refine ⟨fits, .inr ?_⟩
        rw [reached]
        exact ⟨lt_succ_self _, more.1⟩
      · exact ⟨fits, .inr ⟨by omega, reached⟩⟩
    · exact ⟨by omega, .inl rfl⟩

theorem countBits_le_iff (nAuxChains : Nat) : countBits nAuxChains 15 1 ≤ 8 ↔ nAuxChains ≤ 256 := by
  obtain ⟨fits, reached⟩ := countBits_spec nAuxChains (show 15 + 1 = 16 from rfl)
  constructor
  · intro low
    have power := Nat.pow_le_pow_right (show 0 < 2 by decide) low
    omega
  · intro low
    by_contra high
    have power := Nat.pow_le_pow_right (show 0 < 2 by decide)
      (show 8 ≤ countBits nAuxChains 15 1 - 1 by omega)
    omega

theorem decodeMmDepth_fst_le (depth : Nat) : (decodeMmDepth depth).1 ≤ 256 := by
  have bits : 1 + (depth &&& 7) ≤ 8 := by
    have low : depth &&& 7 ≤ 7 := Nat.and_le_right
    omega
  have masked : depth >>> 3 &&& (2 ^ (1 + (depth &&& 7)) - 1) ≤ 2 ^ (1 + (depth &&& 7)) - 1 :=
    and_le_right
  have power := Nat.pow_le_pow_right (show 0 < 2 by decide) bits
  rw [decodeMmDepth]
  omega

theorem decodeMmDepth_packed {nBits count : Nat} (nonce : Nat) (pos : 1 ≤ nBits)
    (low : nBits ≤ 8) (fits : count < 2 ^ nBits) :
    decodeMmDepth ((nBits - 1) ||| (count <<< 3 % 2 ^ 32) ||| (nonce <<< (3 + nBits) % 2 ^ 32)) =
      (1 + count, nonce % 2 ^ (29 - nBits)) := by
  have power := Nat.pow_le_pow_right (show 0 < 2 by decide) low
  have split : 2 ^ (3 + nBits) = 8 * 2 ^ nBits := pow_add 2 3 nBits
  have chains : count <<< 3 % 2 ^ 32 = 2 ^ 3 * count := by
    rw [Nat.shiftLeft_eq, Nat.mod_eq_of_lt (by omega), mul_comm]
  have nonces : nonce <<< (3 + nBits) % 2 ^ 32 = 2 ^ (3 + nBits) * (nonce % 2 ^ (29 - nBits)) := by
    have whole : 2 ^ 32 = 2 ^ (3 + nBits) * 2 ^ (29 - nBits) := by
      rw [← pow_add]
      congr 1
      omega
    rw [shiftLeft_eq, mul_comm, whole, mul_mod_mul_left]
  rw [chains, nonces, Nat.or_comm (nBits - 1),
    ← Nat.two_pow_add_eq_or_of_lt (show nBits - 1 < 2 ^ 3 by omega), Nat.or_comm,
    ← two_pow_add_eq_or_of_lt (show 2 ^ 3 * count + (nBits - 1) < 2 ^ (3 + nBits) by omega)]
  generalize nonce % 2 ^ (29 - nBits) = kept
  have bits : 2 ^ (3 + nBits) * kept + (2 ^ 3 * count + (nBits - 1)) &&& 2 ^ 3 - 1 = nBits - 1 := by
    rw [and_two_pow_sub_one_eq_mod, split, mul_assoc]
    omega
  have eighth : (2 ^ (3 + nBits) * kept + (2 ^ 3 * count + (nBits - 1))) / 2 ^ 3 =
      2 ^ nBits * kept + count := by
    rw [split, mul_assoc]
    omega
  unfold decodeMmDepth
  dsimp only
  rw [show 7 = 2 ^ 3 - 1 from rfl, bits,
    Nat.add_sub_cancel' pos, Nat.and_two_pow_sub_one_eq_mod, Nat.shiftRight_eq_div_pow,
    eighth, shiftRight_eq_div_pow, mul_add_mod, mod_eq_of_lt fits,
    Nat.mul_add_div (Nat.two_pow_pos _), Nat.div_eq_of_lt (by omega), add_zero]

/-- A depth is read back exactly when there are at most 256 chains and the nonce fits in the bits
they leave. -/
theorem decodeMmDepth_encodeMmDepth_iff {nAuxChains nonce depth : Nat}
    (encoded : encodeMmDepth nAuxChains nonce = .ok depth) :
    decodeMmDepth depth = (nAuxChains, nonce) ↔
      nAuxChains ≤ 256 ∧ nonce < 2 ^ (29 - countBits nAuxChains 15 1) := by
  rw [encodeMmDepth] at encoded
  split_ifs at encoded with none
  cases encoded
  obtain ⟨fits, reached⟩ := countBits_spec nAuxChains (show 15 + 1 = 16 from rfl)
  by_cases many : nAuxChains ≤ 256
  · have low := (countBits_le_iff nAuxChains).mpr many
    rw [decodeMmDepth_packed nonce (by omega) low (by omega)]
    simp [many]
    constructor
    · rintro ⟨-, same⟩
      rw [← same]
      exact Nat.mod_lt _ (Nat.two_pow_pos _)
    · intro small
      exact ⟨by omega, mod_eq_of_lt small⟩
  · refine ⟨fun same => ?_, fun ⟨few, _⟩ => absurd few many⟩
    have bounded := (congrArg Prod.fst same).symm.trans_le (decodeMmDepth_fst_le _)
    exact absurd bounded many

theorem decodeMmDepth_encodeMmDepth_five :
    encodeMmDepth 5 77 = .ok 4962 ∧ (decodeMmDepth 4962 = (5, 77) ↔
      5 ≤ 256 ∧ 77 < 2 ^ (29 - countBits 5 15 1)) :=
  ⟨rfl, decodeMmDepth_encodeMmDepth_iff rfl⟩

theorem decodeMmDepth_too_many_chains :
    encodeMmDepth 257 0 = .ok 2056 ∧ decodeMmDepth 2056 ≠ (257, 0) := by
  decide

end MergeMining

end LodeChain

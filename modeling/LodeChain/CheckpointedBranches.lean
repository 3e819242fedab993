import LodeChain.AlternativeCoins

/-!
# Checkpoints

The heights along a branch of alternative blocks are consecutive. `check_against_checkpoints` rolls
the chain back below a block that fails one. What stored blocks were compared with is an invariant
of every step.
-/

namespace LodeChain

open WrappedArithmetic List

def checkBlock (points : List (Nat × Hash)) (height : Nat) (id : Hash) : Bool :=
  (points.lookup height).all fun expected => expected == id

namespace Blockchain

def checkPoints (env : Env) (now : Nat) (points : List (Nat × Hash))
    (enforce : Bool) (blockchainHeight : Nat) :
    List (Nat × Hash) → Blockchain → Blockchain × CallResult
  | [], chain => (chain, .returned true)
  | point :: rest, chain =>
    if blockchainHeight ≤ point.1 then
      checkPoints env now points enforce blockchainHeight rest chain
    else
      match (chain.db.blockHashes env)[point.1]? with
      | none => (chain, .threw)
      | some id =>
        if !checkBlock points point.1 id && enforce then
          let rolled := chain.rollbackBlockchainSwitching env now [] (subMod 64 point.1 2)
          if rolled.2.1 = .threw then (rolled.1, .threw)
          else checkPoints env now points enforce blockchainHeight rest rolled.1
        else checkPoints env now points enforce blockchainHeight rest chain

/-- `check_against_checkpoints`; the points are those of a `std::map`, in order
of height. -/
def checkAgainstCheckpoints (chain : Blockchain) (env : Env) (now : Nat)
    (points : List (Nat × Hash)) (enforce : Bool) : Blockchain × CallResult :=
  checkPoints env now points enforce chain.db.height points chain

variable {env : Env} {now : Nat} {traffic : Traffic} {chain : Blockchain}

theorem length_blockHashes (db : BlockchainDB) (env : Env) :
    (db.blockHashes env).length = db.height := by
  rw [BlockchainDB.blockHashes, length_map, BlockchainDB.height]

theorem rollbackBlockchainSwitching_nil (mined : MinedChain env traffic chain)
    {target : Nat} (pos : 0 < target) (below : target ≤ chain.db.height) :
    ∃ rolled, chain.rollbackBlockchainSwitching env now [] target = (rolled, .returned true, []) ∧
      rolled.db.blocks = chain.db.blocks.take target := by
  obtain ⟨popped, remaining, done, -, kept⟩ :=
    @popToHeight_eq env now chain mined.weighed target pos below
  rw [rollbackBlockchainSwitching, if_neg (not_lt.mpr below), done]
  exact ⟨_, rfl, kept⟩

theorem rollbackBlockchainSwitching_zero (ne : chain.db.blocks ≠ []) :
    ∃ rolled, chain.rollbackBlockchainSwitching env now [] 0 = (rolled, .threw, []) := by
  rw [rollbackBlockchainSwitching]
  rcases done : chain.resetDifficultyCache.popToHeight env now 0 with
    ⟨popped, remaining⟩
  cases popped with
  | none => exact ⟨remaining, rfl⟩
  | some popped =>
    obtain ⟨dropped, poppedTo, -, stopped⟩ := popUntil_some done
    have empty : remaining.db.blocks = [] := by simpa [BlockchainDB.height] using stopped
    exact absurd empty (poppedTo.nonempty ne)

def failedPoints (chain : Blockchain) (env : Env) (points : List (Nat × Hash)) :
    List (Nat × Hash) :=
  points.filter fun point => (chain.db.blockHashes env)[point.1]?.any fun id => id != point.2

/-- No failed point is at height two, one above it is the last the chain covers, and one at height
one is removed by one at height three. -/
structure Enforceable (points failed : List (Nat × Hash)) (height : Nat) : Prop where
  second : ∀ point ∈ failed, point.1 ≠ 2
  last : ∀ point ∈ failed, 3 ≤ point.1 → ∀ other ∈ points, other.1 < height → other.1 ≤ point.1
  first : (∃ point ∈ failed, point.1 = 1) → ∃ point ∈ failed, point.1 = 3

theorem mem_failedPoints {points : List (Nat × Hash)} {point : Nat × Hash} :
    point ∈ chain.failedPoints env points ↔ point ∈ points ∧
      ∃ id, (chain.db.blockHashes env)[point.1]? = some id ∧ id ≠ point.2 := by
  rw [failedPoints, mem_filter, Option.any_eq_true]
  simp

section Loop

variable {points : List (Nat × Hash)}
  (increasing : points.Pairwise fun lower higher => lower.1 < higher.1)

include increasing

variable {point : Nat × Hash}

theorem checkBlock_of_mem (mem : point ∈ points) (id : Hash) :
    checkBlock points point.1 id = (point.2 == id) := by
  have found : points.lookup point.1 = some point.2 := by
    induction points with
    | nil => simp at mem
    | cons head rest ih =>
      obtain ⟨below, later⟩ := pairwise_cons.mp increasing
      rcases mem_cons.mp mem with rfl | inRest
      · exact lookup_cons_self
      · have apart : (point.1 == head.1) = false := beq_false_of_ne (below point inRest).ne'
        rw [lookup_cons, apart]
        exact ih later inRest
  rw [checkBlock, found]
  rfl

theorem checkPoints_quiet (fits : chain.db.height < 2 ^ 64 - 1) {tipHeight : Nat}
    {before : List (Nat × Hash)} (within : ∀ point ∈ before, point ∈ points)
    (quiet : ∀ point ∈ before, point.1 < tipHeight →
      ∃ id, (chain.db.blockHashes env)[point.1]? = some id ∧
        (id = point.2 ∨ point.1 = 1)) (rest : List (Nat × Hash)) :
    checkPoints env now points true tipHeight (before ++ rest) chain =
      checkPoints env now points true tipHeight rest chain := by
  induction before with
  | nil => rfl
  | cons point before ih =>
    have later := ih (fun other mem => within other (mem_cons_of_mem _ mem))
      (fun other mem => quiet other (mem_cons_of_mem _ mem))
    rw [cons_append, checkPoints]
    split
    · exact later
    · rename_i lt
      obtain ⟨id, found, passes⟩ := quiet point mem_cons_self (Nat.lt_of_not_le lt)
      rw [found]
      dsimp only
      rw [checkBlock_of_mem increasing (within point mem_cons_self)]
      split
      · rename_i failed
        have one : point.1 = 1 := by
          refine passes.resolve_left ?_
          rintro rfl
          simp at failed
        have target : subMod 64 point.1 2 = 2 ^ 64 - 1 := by
          rw [one]
          rfl
        rw [rollbackBlockchainSwitching, target, if_pos fits]
        exact later
      · exact later

omit increasing in
theorem checkPoints_beyond {tipHeight : Nat} {rest : List (Nat × Hash)}
    (beyond : ∀ point ∈ rest, chain.db.height ≤ point.1)
    (below : ∃ point ∈ rest, point.1 < tipHeight) :
    (checkPoints env now points true tipHeight rest chain).2 = .threw := by
  induction rest with
  | nil => simp at below
  | cons point rest ih =>
    rw [checkPoints]
    split
    · rename_i skipped
      refine ih (fun other mem => beyond other (mem_cons_of_mem _ mem)) ?_
      obtain ⟨other, mem, lower⟩ := below
      rcases mem_cons.mp mem with rfl | inRest
      · omega
      · exact ⟨other, inRest, lower⟩
    · have missing : (chain.db.blockHashes env)[point.1]? = none := by
        rw [List.getElem?_eq_none_iff, length_blockHashes]
        exact beyond point mem_cons_self
      rw [missing]

omit increasing in
theorem failedPoints_lt (failed : point ∈ chain.failedPoints env points) :
    point.1 < chain.db.height := by
  obtain ⟨-, id, found, -⟩ := mem_failedPoints.mp failed
  rw [← length_blockHashes _]
  exact (List.getElem?_eq_some_iff.mp found).choose

theorem checkPoints_failed (failed : point ∈ chain.failedPoints env points)
    (rest : List (Nat × Hash)) :
    checkPoints env now points true chain.db.height (point :: rest) chain =
      let rolled := chain.rollbackBlockchainSwitching env now []
        (subMod 64 point.1 2)
      if rolled.2.1 = .threw then (rolled.1, .threw)
      else
        checkPoints env now points true chain.db.height rest rolled.1 := by
  obtain ⟨mem, id, found, differs⟩ := mem_failedPoints.mp failed
  have fails : (!(point.2 == id) && true) = true := by simpa using Ne.symm differs
  rw [checkPoints, if_neg (not_le.mpr (failedPoints_lt failed)), found]
  dsimp only
  rw [checkBlock_of_mem increasing mem, if_pos fails]

theorem checkPoints_rolls_back (mined : MinedChain env traffic chain)
    (fits : chain.db.height < 2 ^ 64 - 1) {point : Nat × Hash}
    (failed : point ∈ chain.failedPoints env points) (high : 3 ≤ point.1)
    (rest : List (Nat × Hash)) :
    ∃ rolled : Blockchain, checkPoints env now points true chain.db.height (point :: rest) chain =
        checkPoints env now points true chain.db.height rest rolled ∧
      rolled.db.blocks = chain.db.blocks.take (point.1 - 2) := by
  have lt := failedPoints_lt failed
  have target : subMod 64 point.1 2 = point.1 - 2 := subMod_of_le (by omega) (by omega)
  obtain ⟨rolled, rollback, blocks⟩ := @rollbackBlockchainSwitching_nil env now
    traffic chain mined (point.1 - 2) (by omega) (by omega)
  refine ⟨rolled, ?_, blocks⟩
  rw [checkPoints_failed increasing failed, target, rollback]
  rfl

theorem checkPoints_throws (failed : point ∈ chain.failedPoints env points) (second : point.1 = 2)
    (rest : List (Nat × Hash)) :
    (checkPoints env now points true chain.db.height (point :: rest) chain).2 = .threw := by
  have lt := failedPoints_lt failed
  have ne : chain.db.blocks ≠ [] := by
    refine ne_nil_of_length_pos ?_
    change 0 < chain.db.height
    omega
  have target : subMod 64 point.1 2 = 0 := by
    rw [second]
    rfl
  obtain ⟨rolled, rollback⟩ := rollbackBlockchainSwitching_zero ne
  rw [checkPoints_failed increasing failed, target, rollback]
  rfl

end Loop

/-! ## When checkpoints can be enforced -/

open BlockchainDB

variable {env : Env} {now : Nat} {traffic : Traffic} {chain : Blockchain}

def MatchesPoints (chain : Blockchain) (env : Env) (points : List (Nat × Hash)) : Prop :=
  ∀ point ∈ points, point.1 < chain.db.height → (chain.db.blockHashes env)[point.1]? = some point.2

theorem matches_or_failed {points : List (Nat × Hash)} {point : Nat × Hash}
    (mem : point ∈ points) (lt : point.1 < chain.db.height) :
    (chain.db.blockHashes env)[point.1]? = some point.2 ∨
      point ∈ chain.failedPoints env points := by
  rw [← length_blockHashes _] at lt
  rw [mem_failedPoints, getElem?_eq_getElem lt]
  by_cases same : (chain.db.blockHashes env)[point.1] = point.2
  · exact .inl (by rw [same])
  · exact .inr ⟨mem, _, rfl, same⟩

theorem not_failed_of_matches {points : List (Nat × Hash)} {point : Nat × Hash}
    (matched : (chain.db.blockHashes env)[point.1]? = some point.2) :
    point ∉ chain.failedPoints env points := by
  intro failed
  obtain ⟨-, id, found, differs⟩ := mem_failedPoints.mp failed
  rw [matched, Option.some.injEq] at found
  exact differs found.symm

theorem exists_first_failed (env : Env) (chain : Blockchain) (points : List (Nat × Hash)) :
    (∀ point ∈ points, point.1 < chain.db.height →
      (chain.db.blockHashes env)[point.1]? = some point.2 ∨ point.1 = 1) ∨
    ∃ before point after, points = before ++ point :: after ∧
      point ∈ chain.failedPoints env points ∧ point.1 ≠ 1 ∧
      ∀ other ∈ before, other.1 < chain.db.height →
        (chain.db.blockHashes env)[other.1]? = some other.2 ∨ other.1 = 1 := by
  have passes : ∀ {point}, point ∈ points → point.1 < chain.db.height →
      ¬ (point ∈ chain.failedPoints env points ∧ point.1 ≠ 1) →
        (chain.db.blockHashes env)[point.1]? = some point.2 ∨ point.1 = 1 := by
    intro point mem lt passed
    rcases matches_or_failed mem lt with matched | failed
    · exact .inl matched
    · exact .inr (not_not.mp fun high => passed ⟨failed, high⟩)
  rcases found : points.find? (fun point =>
    decide (point ∈ chain.failedPoints env points ∧ point.1 ≠ 1)) with
    _ | point
  · left
    intro point mem lt
    have passed := List.find?_eq_none.mp found point mem
    exact passes mem lt (by simpa only [decide_eq_true_eq] using passed)
  · right
    obtain ⟨failed, before, after, split, prev⟩ := find?_eq_some_iff_append.mp found
    rw [decide_eq_true_eq] at failed
    refine ⟨before, point, after, split, failed.1, failed.2, ?_⟩
    intro other mem lt
    have passed := prev other mem
    rw [Bool.not_eq_true', decide_eq_false_iff_not] at passed
    refine passes ?_ lt passed
    rw [split]
    exact mem_append_left _ mem

section Enforced

variable {points : List (Nat × Hash)}
  (increasing : points.Pairwise fun lower higher => lower.1 < higher.1)
  (fits : chain.db.height < 2 ^ 64 - 1)

include increasing fits

theorem checkAgainstCheckpoints_skip {before after : List (Nat × Hash)}
    (split : points = before ++ after) (quiet : ∀ point ∈ before, point.1 < chain.db.height →
      (chain.db.blockHashes env)[point.1]? = some point.2 ∨ point.1 = 1) :
    chain.checkAgainstCheckpoints env now points true =
      checkPoints env now points true chain.db.height after chain := by
  have skipped := @checkPoints_quiet env now chain points increasing fits chain.db.height before
    (fun point mem => split ▸ mem_append_left _ mem)
    (fun point mem lt => by
      have stored := lt
      rw [← length_blockHashes _] at stored
      refine ⟨_, getElem?_eq_getElem stored, ?_⟩
      refine (quiet point mem lt).imp_left fun matched => ?_
      rwa [getElem?_eq_getElem, Option.some.injEq] at matched)
    after
  rw [← split] at skipped
  exact skipped

theorem checkAgainstCheckpoints_iff_of_quiet (quiet : ∀ point ∈ points, point.1 < chain.db.height →
      (chain.db.blockHashes env)[point.1]? = some point.2 ∨ point.1 = 1) :
    ((chain.checkAgainstCheckpoints env now points true).2 ≠ .threw ∧
        (chain.checkAgainstCheckpoints env now points true).1.MatchesPoints env points) ↔
      Enforceable points (chain.failedPoints env points) chain.db.height := by
  have done : chain.checkAgainstCheckpoints env now points true = (chain, .returned true) :=
    checkAgainstCheckpoints_skip increasing fits (append_nil points).symm quiet
  rw [done]
  constructor
  · rintro ⟨-, matched⟩
    have none : ∀ point, point ∉ chain.failedPoints env points := by
      intro point failed
      exact not_failed_of_matches (matched point
        (mem_failedPoints.mp failed).1 (failedPoints_lt failed)) failed
    refine ⟨fun point failed => absurd failed (none point),
      fun point failed => absurd failed (none point), ?_⟩
    rintro ⟨point, failed, -⟩
    exact absurd failed (none point)
  · intro enforceable
    refine ⟨by simp, fun point mem lt => ?_⟩
    rcases matches_or_failed mem lt with matched | failed
    · exact matched
    · have one := (quiet point mem lt).resolve_left fun matched =>
        not_failed_of_matches matched failed
      obtain ⟨other, otherFailed, three⟩ := enforceable.first ⟨point, failed, one⟩
      rcases quiet other (mem_failedPoints.mp otherFailed).1
        (failedPoints_lt otherFailed) with matched | low
      · exact absurd otherFailed (not_failed_of_matches matched)
      · omega

end Enforced

structure FirstFailed (env : Env) (chain : Blockchain)
    (before : List (Nat × Hash)) (point : Nat × Hash) (after : List (Nat × Hash)) : Prop where
  increasing : (before ++ point :: after).Pairwise fun lower higher =>
    lower.1 < higher.1
  failed : point ∈ chain.failedPoints env (before ++ point :: after)
  high : 3 ≤ point.1
  quiet : ∀ other ∈ before, other.1 < chain.db.height →
    (chain.db.blockHashes env)[other.1]? = some other.2 ∨ other.1 = 1

namespace FirstFailed

variable {before after : List (Nat × Hash)} {point : Nat × Hash} {other : Nat × Hash}

section

variable (first : FirstFailed env chain before point after)

include first

theorem before_lt (mem : other ∈ before) : other.1 < point.1 :=
  (pairwise_append.mp first.increasing).2.2 other mem point mem_cons_self

theorem lt_after (mem : other ∈ after) : point.1 < other.1 :=
  (pairwise_cons.mp (pairwise_append.mp first.increasing).2.1).1 other mem

theorem failed_cases (failed : other ∈ chain.failedPoints env (before ++ point :: after)) :
    other.1 = 1 ∨ other = point ∨ other ∈ after := by
  rcases mem_append.mp (mem_failedPoints.mp failed).1 with
    inBefore | isPoint
  · refine .inl ((first.quiet other inBefore
      (failedPoints_lt failed)).resolve_left fun matched => ?_)
    exact not_failed_of_matches matched failed
  · exact .inr (mem_cons.mp isPoint)

theorem failed_eq_point (last : ∀ other ∈ after, chain.db.height ≤ other.1)
    (failed : other ∈ chain.failedPoints env (before ++ point :: after)) (high : other.1 ≠ 1) :
    other = point := by
  rcases first.failed_cases failed with one | same | later
  · exact absurd one high
  · exact same
  · have below := failedPoints_lt failed
    have above := last other later
    omega

end

section RolledBack

variable {rolled : Blockchain} (blocks : rolled.db.blocks = chain.db.blocks.take (point.1 - 2))

include blocks

theorem rolled_height (first : FirstFailed env chain before point after) :
    rolled.db.height = point.1 - 2 := by
  have below : point.1 < chain.db.blocks.length := failedPoints_lt first.failed
  rw [height, blocks, List.length_take]
  omega

theorem rolled_blockHashes (env : Env) {index : Nat} (below : index < point.1 - 2) :
    (rolled.db.blockHashes env)[index]? = (chain.db.blockHashes env)[index]? := by
  rw [blockHashes, blocks, map_take,
    getElem?_take_of_lt below, blockHashes]

section

variable (first : FirstFailed env chain before point after)
  (last : ∀ other ∈ after, chain.db.height ≤ other.1)

include first last

theorem enforceable_of_matchesPoints
    (matched : rolled.MatchesPoints env (before ++ point :: after)) :
    Enforceable (before ++ point :: after)
      (chain.failedPoints env (before ++ point :: after)) chain.db.height := by
  refine ⟨?_, ?_, ?_⟩
  · intro other failed second
    have same := first.failed_eq_point last failed (by omega)
    have high := same ▸ first.high
    omega
  · intro other failed high third mem below
    rw [first.failed_eq_point last failed (by omega)]
    rcases mem_append.mp mem with inBefore | isPoint
    · exact (first.before_lt inBefore).le
    · rcases mem_cons.mp isPoint with same | inAfter
      · rw [same]
      · have above := last third inAfter
        omega
  · rintro ⟨other, failed, one⟩
    refine ⟨point, first.failed, ?_⟩
    by_contra higher
    have high := first.high
    have low : other.1 < point.1 - 2 := by omega
    have found := matched other (mem_failedPoints.mp failed).1
      ((rolled_height blocks first).symm ▸ low)
    rw [rolled_blockHashes blocks env low] at found
    exact not_failed_of_matches found failed

theorem matchesPoints_of_enforceable (enforceable : Enforceable (before ++ point :: after)
      (chain.failedPoints env (before ++ point :: after)) chain.db.height) :
    rolled.MatchesPoints env (before ++ point :: after) := by
  have lt := failedPoints_lt first.failed
  intro other mem low
  rw [rolled_height blocks first] at low
  rw [rolled_blockHashes blocks env low]
  rcases @matches_or_failed env chain _ other mem (by omega) with
    matched | failed
  · exact matched
  · by_cases one : other.1 = 1
    · obtain ⟨third, thirdFailed, three⟩ := enforceable.first ⟨other, failed, one⟩
      have same := first.failed_eq_point last thirdFailed (by omega)
      rw [← same] at low
      omega
    · have same := first.failed_eq_point last failed one
      rw [same] at low
      omega

theorem matchesPoints_iff :
    rolled.MatchesPoints env (before ++ point :: after) ↔ Enforceable (before ++ point :: after)
        (chain.failedPoints env (before ++ point :: after)) chain.db.height :=
  ⟨enforceable_of_matchesPoints blocks first last, matchesPoints_of_enforceable blocks first last⟩

end

end RolledBack

end FirstFailed

/-- Enforcing checkpoints ends cleanly in a matching chain exactly when the failed ones are
enforceable. -/
theorem Reachable.checkAgainstCheckpoints_iff (reachable : Reachable env traffic chain)
    (fits : chain.db.height < 2 ^ 64 - 1) {points : List (Nat × Hash)}
    (increasing : points.Pairwise fun lower higher => lower.1 < higher.1)
    (genesis : ∀ point ∈ points, point.1 = 0 → (chain.db.blockHashes env)[0]? = some point.2) :
    ((chain.checkAgainstCheckpoints env now points true).2 ≠ .threw ∧
        (chain.checkAgainstCheckpoints env now points true).1.MatchesPoints env points) ↔
      Enforceable points (chain.failedPoints env points) chain.db.height := by
  rcases exists_first_failed env chain points with
    quiet | ⟨before, point, after, split, failed, notOne, quiet⟩
  · exact checkAgainstCheckpoints_iff_of_quiet increasing fits quiet
  · have notZero : point.1 ≠ 0 := by
      intro zero
      have matched := genesis point (mem_failedPoints.mp failed).1 zero
      rw [← zero] at matched
      exact not_failed_of_matches matched failed
    rw [checkAgainstCheckpoints_skip increasing fits split quiet]
    by_cases second : point.1 = 2
    · constructor
      · rintro ⟨returned, -⟩
        exact absurd (checkPoints_throws increasing failed second after) returned
      · intro enforceable
        exact absurd second (enforceable.second point failed)
    · obtain ⟨rolled, loop, blocks⟩ := @checkPoints_rolls_back env now traffic
        chain points increasing reachable.minedChain fits point failed
        (by omega) after
      subst split
      have first : FirstFailed env chain before point after := ⟨increasing, failed, by omega, quiet⟩
      have height : rolled.db.height ≤ point.1 := by
        rw [height, blocks, List.length_take]
        omega
      rw [loop]
      by_cases last : ∀ other ∈ after, chain.db.height ≤ other.1
      · have done := @checkPoints_quiet env now rolled _ increasing
          (by have := failedPoints_lt failed; omega) _ after
          (fun other member => mem_append_right _ (mem_cons_of_mem _ member))
          (fun other member below => absurd below (not_lt.mpr (last other member))) []
        rw [append_nil, checkPoints] at done
        rw [done, FirstFailed.matchesPoints_iff blocks first last |>.symm]
        simp
      · push Not at last
        constructor
        · rintro ⟨returned, -⟩
          exact absurd (checkPoints_beyond (fun other member =>
            height.trans (first.lt_after member).le) last) returned
        · intro enforceable
          obtain ⟨other, member, below⟩ := last
          have lower := enforceable.last point failed first.high other
            (mem_append_right _ (mem_cons_of_mem _ member)) below
          exact absurd (first.lt_after member) (not_lt.mpr lower)

def claimingChainTo (height : Nat) (chain : Blockchain) : Blockchain :=
  (chain.handleBlockToMainChain uncheckedEnv (120 * height)
    { claimingBlock height (120 * height - 119) 0 [] with
      majorVersion := 16
      minorVersion := 16
      minerTx :=
        { Transaction.setNull with
          version := 2
          unlockTime := height + 60
          vin := [.gen height]
          vout := ⟨10000000000, .toTaggedKey 5 1⟩ ::
            List.replicate height ⟨0, .toTaggedKey 5 1⟩ } } .init).chain

/-- The last of four blocks fails a checkpoint and is taken off with the one below it. -/
theorem claimingChain_enforced :
    let chain := claimingChainTo 3 (claimingChainTo 2 claimingChain)
    chain.failedPoints uncheckedEnv [(0, 1), (3, 7)] = [(3, 7)] ∧
    (chain.checkAgainstCheckpoints uncheckedEnv 0 [(0, 1), (3, 7)] true).2 ≠ .threw ∧
      (chain.checkAgainstCheckpoints uncheckedEnv 0 [(0, 1), (3, 7)]
        true).1.MatchesPoints uncheckedEnv [(0, 1), (3, 7)] := by
  obtain ⟨start, initial, run⟩ := claimingChain_reachable
  intro chain
  have reachable : Reachable uncheckedEnv .any chain :=
    ⟨start, initial, (run.tail (.mainBlock _ _ _ _ rfl trivial)).tail
      (.mainBlock _ _ _ _ rfl trivial)⟩
  have failed : chain.failedPoints uncheckedEnv [(0, 1), (3, 7)] = [(3, 7)] := by decide
  refine ⟨failed, (reachable.checkAgainstCheckpoints_iff (by decide) (by decide)
    (by decide)).mpr ?_⟩
  rw [failed]
  exact ⟨by simp, by simp, by simp⟩

/-- A failed checkpoint at height one asks for a rollback to the height `2 ^ 64 - 1`: the block
stays. -/
theorem claimingChain_keeps_failed_block :
    let done := claimingChain.checkAgainstCheckpoints uncheckedEnv 0 [(1, 7)]
      true
    done.2 = .returned true ∧ done.1.db.height = 2 ∧
      (done.1.db.blockHashes uncheckedEnv)[1]? = some 121 := by
  decide

/-! ## What stored blocks were compared with -/

variable {points : List (Nat × Hash)} {after : Blockchain}

variable {height : Nat} {entry : BlockEntry}

theorem SoundChain.height_of_getElem? (sound : SoundChain env traffic chain)
    (found : chain.db.blocks[height]? = some entry) :
    getBlockHeight entry.bl = height := by
  obtain ⟨lt, -⟩ := List.getElem?_eq_some_iff.mp found
  rw [(sound.entries.of_getElem? found).height, List.length_take]
  omega

/-- A record of the main chain that matches the checkpoints and whose coinbase
has a weight. -/
structure CheckedEntry (env : Env) (points : List (Nat × Hash))
    (earlier : List BlockEntry) (entry : BlockEntry) : Prop where
  checkpointed : checkBlock points earlier.length (env.getBlockHash entry.bl) = true
  weighed : ∃ weight, getTransactionWeight entry.bl.minerTx = some weight

/-- The record matches the checkpoints, has a weight and a height that follows from its parent. -/
structure CheckedAlternative (env : Env) (traffic : Traffic)
    (points : List (Nat × Hash)) (id : Hash) (bei : BlockExtendedInfo) : Prop where
  permitted : traffic.block bei.bl
  named : env.getBlockHash bei.bl = id
  height : getBlockHeight bei.bl = bei.height
  checkpointed : checkBlock points bei.height id = true
  weighed : ∃ weight, getTransactionWeight bei.bl.minerTx = some weight
  parent : ∀ block, traffic.block block → env.getBlockHash block = bei.bl.prevId →
      getBlockHeight block + 1 = bei.height

/-- A node with the given checkpoints whose stored blocks match them. -/
structure CheckedChain (env : Env) (traffic : Traffic)
    (points : List (Nat × Hash)) (chain : Blockchain) : Prop
    extends MinedChain env traffic chain where
  configured : chain.checkpoints = points
  checked : ListFacts.EachAfter (CheckedEntry env points) chain.db.blocks
  alternatives : ∀ id bei, chain.db.altBlocks.lookup id = some bei →
    CheckedAlternative env traffic points id bei

theorem CheckedChain.heldBlocks (checked : CheckedChain env traffic points chain) :
    HeldBlocks traffic chain :=
  ⟨checked.blocks, fun id bei found => (checked.alternatives id bei found).permitted⟩

theorem lookup_eq_none_of_outside (outside : chain.isInCheckpointZone height = false) :
    chain.checkpoints.lookup height = none := by
  rw [List.lookup_eq_none_iff]
  intro point mem
  have above := List.any_eq_false.mp outside point mem
  simp at above
  simp
  omega

theorem checkBlock_of_zone {id : Hash}
    (inZone : chain.isInCheckpointZone height = true → chain.checkCheckpoint height id = true) :
    checkBlock chain.checkpoints height id = true := by
  rcases zone : chain.isInCheckpointZone height with _ | _
  · rw [checkBlock, lookup_eq_none_of_outside zone]
    rfl
  · exact inZone zone

variable {block : Block}

theorem AcceptedBlock.checkedEntry {now : Nat} {entries : List PoolEntry}
    (accepted : AcceptedBlock env now chain block entries entry after) :
    CheckedEntry env chain.checkpoints chain.db.blocks entry := by
  obtain ⟨weight, weighed, -⟩ := accepted.blockWeight
  have checkpointed := checkBlock_of_zone accepted.checkpointed
  rw [← accepted.bl] at weighed checkpointed
  exact ⟨checkpointed, weight, weighed⟩

section

variable (distinct : Set.InjOn env.getBlockHash {block | traffic.block block})

include distinct

section

variable {altChain : List BlockExtendedInfo} {bei : BlockExtendedInfo}
  (checked : CheckedChain env traffic points chain)

include checked

theorem AcceptedAlternative.parent_height
    (accepted : AcceptedAlternative env chain block altChain bei)
    {parent : Block} (permitted : traffic.block parent)
    (named : env.getBlockHash parent = block.prevId) : getBlockHeight parent + 1 = bei.height := by
  obtain ⟨times, built⟩ := accepted.built
  obtain ⟨walked, rootExists, -⟩ := buildAltChain_eq_some built
  have last := chain.db.getLast?_altChainTo block.prevId
  rw [← walked] at last
  rw [accepted.height, alternativeParent, last]
  rcases found : chain.db.altBlocks.lookup block.prevId with _ | record
  · rw [found] at last
    rw [List.getLast?_eq_none_iff.mp last] at rootExists
    obtain ⟨entry, lt, same⟩ := chain.db.exists_of_blockExists rootExists
    have eq : parent = entry.bl := distinct permitted
      (checked.blocks entry (List.mem_of_getElem? lt))
      (named.trans same.symm)
    rw [eq, checked.height_of_getElem? lt]
    rfl
  · have stored := checked.alternatives _ record found
    have eq : parent = record.bl := distinct permitted stored.permitted
      (named.trans stored.named.symm)
    rw [eq, stored.height]

theorem CheckedChain.accept (permitted : traffic.block block)
    (verdict : chain.checkAlternativeBlock env block (env.getBlockHash block) =
      .accepted altChain bei) :
    CheckedAlternative env traffic points (env.getBlockHash block) bei := by
  have accepted := checkAlternativeBlock_accepted verdict
  have checkpointed := accepted.checkpointed
  have weighed := accepted.weighed
  obtain ⟨height, -⟩ := prevalidateMinerTransaction_spec accepted.prevalidated
  have bl := accepted.bl
  refine ⟨bl ▸ permitted, by rw [bl], by rw [bl, height],
    checked.configured ▸ checkpointed, bl ▸ weighed, ?_⟩
  intro parent recv named
  exact accepted.parent_height distinct checked recv (named.trans (by rw [bl]))

end

theorem ChainStep.checkedChain
    (step : ChainStep env traffic chain after) (checked : CheckedChain env traffic points chain) :
    CheckedChain env traffic points after := by
  refine ⟨step.minedChain checked.toMinedChain,
    step.sameConfig.checkpoints.trans checked.configured, ?_, ?_⟩
  · rcases step.blocks_cases with
      ⟨now, block, poolEntries, entry, -, accepted⟩ | ⟨top, popped⟩ | same
    · rw [accepted.blocks]
      exact checked.checked.append_singleton (checked.configured ▸ accepted.checkedEntry)
    · have entries := checked.checked
      rw [popped.blocks] at entries
      exact entries.of_append
    · rw [same]
      exact checked.checked
  · intro id bei found
    rcases step.altBlocks_cases with
      ⟨block, altChain, added, permitted, -, verdict, inserted⟩ | ⟨dropped, erased⟩ | same
    · rw [inserted] at found
      rcases AList.lookup_insert_eq_some_iff.mp found with
        ⟨rfl, rfl⟩ | ⟨-, before⟩
      · exact checked.accept distinct permitted verdict
      · exact checked.alternatives id bei before
    · rw [erased, AList.lookup_erase_eq_some_iff] at found
      exact checked.alternatives id bei found.2
    · rw [same] at found
      exact checked.alternatives id bei found

end

theorem IsInitial.checkedChain (initial : IsInitial chain) :
    CheckedChain env traffic chain.checkpoints chain := by
  refine ⟨Reachable.minedChain ⟨chain, initial, .refl⟩, rfl, ?_, ?_⟩
  · rw [initial.blocks]
    exact .nil
  · intro id bei found
    rw [initial.altBlocks] at found
    simp at found

theorem Run.checkedChain (distinct : Set.InjOn env.getBlockHash {block | traffic.block block})
    (run : Run env traffic chain after) (checked : CheckedChain env traffic points chain) :
    CheckedChain env traffic points after :=
  run.preserves (fun step => step.checkedChain distinct) checked

end Blockchain

/-! ## Branches above a checkpoint -/

theorem altWalk_linked {env : Env} {table : AList fun _ : Hash => BlockExtendedInfo}
    (named : ∀ id bei, table.lookup id = some bei → env.getBlockHash bei.bl = id) (fuel : Nat)
    (id : Hash) : (altWalk table fuel id []).IsChain
        (fun lower upper => upper.bl.prevId = env.getBlockHash lower.bl) ∧
      ∀ last ∈ (altWalk table fuel id []).getLast?, env.getBlockHash last.bl = id := by
  induction fuel generalizing id with
  | zero => exact ⟨.nil, by simp [altWalk]⟩
  | succ fuel ih =>
    rw [altWalk]
    split
    · exact ⟨.nil, by simp⟩
    · rename_i bei found
      obtain ⟨linked, last⟩ := ih _
      rw [altWalk_eq_append]
      constructor
      · rw [isChain_append]
        refine ⟨linked, .singleton _, ?_⟩
        intro lower mem upper first
        simp at first
        rw [← first]
        exact (last lower mem).symm
      · intro top mem
        simp at mem
        rw [← mem]
        exact named id bei found

theorem exists_height_of_consecutive {front tip : BlockExtendedInfo} {rest : List BlockExtendedInfo}
    (consecutive : (front :: rest).IsChain fun lower upper => lower.height + 1 = upper.height)
    (last : (front :: rest).getLast? = some tip) {height : Nat}
    (above : front.height ≤ height) (below : height ≤ tip.height) :
    ∃ bei ∈ front :: rest, bei.height = height := by
  induction rest generalizing front with
  | nil =>
    simp at last
    subst last
    exact ⟨front, mem_cons_self, le_antisymm above below⟩
  | cons next rest ih =>
    rw [isChain_cons_cons] at consecutive
    rcases eq_or_lt_of_le above with same | higher
    · exact ⟨front, mem_cons_self, same⟩
    · have upper : (next :: rest).getLast? = some tip := by rw [← last, getLast?_cons_cons]
      obtain ⟨bei, mem, found⟩ := ih consecutive.2 upper (by omega)
      exact ⟨bei, mem_cons_of_mem _ mem, found⟩

namespace Blockchain

variable {env : Env} {traffic : Traffic} {points : List (Nat × Hash)}
  {chain after : Blockchain} {front bei : BlockExtendedInfo}
  {rest altChain : List BlockExtendedInfo} {block : Block}

def Unmarked (points : List (Nat × Hash)) (chain : Blockchain) : Prop :=
  ∀ id bei, chain.db.altBlocks.lookup id = some bei → points.lookup bei.height = none

/-- A branch of stored alternative blocks on a block of the main chain. -/
structure StoredBranch (env : Env) (chain : Blockchain)
    (front : BlockExtendedInfo) (rest : List BlockExtendedInfo) : Prop where
  onMain : chain.db.blockExists env front.bl.prevId = true
  linked : (front :: rest).IsChain fun lower upper => upper.bl.prevId = env.getBlockHash lower.bl
  stored : ∀ bei ∈ front :: rest, chain.db.altBlocks.lookup (env.getBlockHash bei.bl) = some bei

section Branch

variable (branch : StoredBranch env chain front rest)
  (checked : CheckedChain env traffic points chain)

include branch checked

theorem StoredBranch.consecutive : (front :: rest).IsChain
    fun lower upper => lower.height + 1 = upper.height := by
  refine List.IsChain.imp_of_mem_imp ?_ branch.linked
  intro lower upper lowerMember upperMember link
  have below := checked.alternatives _ _ (branch.stored lower lowerMember)
  have above := checked.alternatives _ _ (branch.stored upper upperMember)
  rw [← below.height]
  exact above.parent _ below.permitted link.symm

theorem StoredBranch.root_height :
    chain.db.getBlockHeight env front.bl.prevId + 1 = front.height := by
  obtain ⟨root, lt, named⟩ := BlockchainDB.exists_of_blockExists branch.onMain
  have stored := checked.alternatives _ _ (branch.stored front mem_cons_self)
  rw [← checked.height_of_getElem? lt]
  exact stored.parent _ (checked.blocks root (mem_of_getElem? lt)) named

theorem StoredBranch.ids_nodup :
    (((front :: rest).map BlockExtendedInfo.bl).map env.getBlockHash).Nodup := by
  have increasing : (front :: rest).Pairwise fun lower upper => lower.height < upper.height := by
    refine List.IsChain.pairwise (List.IsChain.imp ?_ (branch.consecutive checked))
    intro lower upper next
    omega
  have distinct : (front :: rest).Nodup := increasing.imp fun below same => by simp [same] at below
  rw [map_map]
  refine distinct.map_on ?_
  intro one oneMember other otherMember same
  have found := branch.stored other otherMember
  rw [← show env.getBlockHash one.bl = env.getBlockHash other.bl from same,
    branch.stored one oneMember] at found
  exact Option.some.inj found

end Branch

theorem StoredBranch.permitted (branch : StoredBranch env chain front rest)
    (checked : CheckedChain env traffic points chain) :
    ∀ block ∈ (front :: rest).map BlockExtendedInfo.bl, traffic.block block ∧
      ∃ weight, getTransactionWeight block.minerTx = some weight := by
  intro block mem
  obtain ⟨bei, lt, rfl⟩ := mem_map.mp mem
  have stored := checked.alternatives _ _ (branch.stored bei lt)
  exact ⟨stored.permitted, stored.weighed⟩

theorem CheckedChain.storedBranch (checked : CheckedChain env traffic points chain)
    (verdict : chain.checkAlternativeBlock env block (env.getBlockHash block) =
      .accepted altChain bei) : ∃ front rest, altChain ++ [bei] = front :: rest ∧
      StoredBranch env (chain.storeAlternative (env.getBlockHash block) bei) front rest := by
  have accepted := checkAlternativeBlock_accepted verdict
  obtain ⟨times, built⟩ := accepted.built
  obtain ⟨walked, rootExists, -⟩ := buildAltChain_eq_some built
  rw [BlockchainDB.altChainTo] at walked
  have named : ∀ id other, chain.db.altBlocks.lookup id = some other →
      env.getBlockHash other.bl = id :=
    fun id other found => (checked.alternatives id other found).named
  obtain ⟨linked, last⟩ := altWalk_linked named _ _
  have onTop : (altChain ++ [bei]).IsChain
      fun lower upper => upper.bl.prevId = env.getBlockHash lower.bl := by
    rw [isChain_append]
    refine ⟨walked ▸ linked, .singleton _, ?_⟩
    intro lower mem upper first
    simp at first
    rw [← first, accepted.bl]
    exact (last lower (walked ▸ mem)).symm
  have kept : ∀ other ∈ altChain ++ [bei],
      (chain.storeAlternative (env.getBlockHash block) bei).db.altBlocks.lookup
        (env.getBlockHash other.bl) = some other := by
    intro other mem
    apply AList.lookup_insert_eq_some_iff.mpr
    rcases mem_append.mp mem with lt | top
    · right
      obtain ⟨id, found⟩ := mem_altWalk (walked ▸ lt)
      rw [named id other found]
      refine ⟨?_, found⟩
      rintro rfl
      rw [accepted.isNew] at found
      simp at found
    · left
      rw [mem_singleton.mp top, accepted.bl]
      exact ⟨rfl, rfl⟩
  cases altChain with
  | nil =>
    refine ⟨bei, [], rfl, ?_, onTop, kept⟩
    rw [accepted.bl]
    exact rootExists
  | cons front rest => exact ⟨front, rest ++ [bei], rfl, rootExists, onTop, kept⟩

theorem CheckedChain.lt_front (distinct : Set.InjOn env.getBlockHash {block | traffic.block block})
    (checked : CheckedChain env traffic points chain) (unmarked : Unmarked points chain)
    (permitted : traffic.block block)
    (verdict : chain.checkAlternativeBlock env block (env.getBlockHash block) =
      .accepted altChain bei) (split : altChain ++ [bei] = front :: rest)
    (branch : StoredBranch env (chain.storeAlternative (env.getBlockHash block) bei) front rest)
    (checkedAfter : CheckedChain env traffic points
      (chain.storeAlternative (env.getBlockHash block) bei)) {height : Nat} {expected : Hash}
    (marked : points.lookup height = some expected) (reached : height < chain.db.height) :
    height < front.height := by
  have accepted := checkAlternativeBlock_accepted verdict
  have allowed := accepted.allowed
  have record := checked.accept distinct permitted verdict
  have bl := accepted.bl
  have below : height < bei.height := by
    obtain ⟨before, later, listed, -⟩ := lookup_eq_some_iff.mp marked
    have mem : (height, expected) ∈ chain.checkpoints := by
      rw [checked.configured, listed]
      exact mem_append_right _ mem_cons_self
    rw [isAlternativeBlockAllowed, Bool.and_eq_true, all_eq_true] at allowed
    have above := allowed.2 _ mem
    simp at above
    rw [← record.height, bl]
    omega
  by_contra notBelow
  have last : (front :: rest).getLast? = some bei := by rw [← split, getLast?_concat]
  obtain ⟨other, mem, same⟩ := exists_height_of_consecutive
    (branch.consecutive checkedAfter) last (Nat.le_of_not_lt notBelow) below.le
  rcases AList.lookup_insert_eq_some_iff.mp (branch.stored other mem) with
    ⟨-, rfl⟩ | ⟨-, before⟩
  · omega
  · have none_ := unmarked _ _ before
    rw [same, marked] at none_
    simp at none_

end Blockchain

end LodeChain

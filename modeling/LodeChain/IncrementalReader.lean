import Mathlib.Data.List.Basic

/-!
# Readers that work on a stream as it arrives

A reader holds what has arrived and not been used yet. If a step depends on the front of it only, it
does not matter in which pieces the stream arrives.
-/

namespace LodeChain

namespace IncrementalReader

inductive Step (State Output Reason : Type) where
  | wait
  | close (reason : Reason)
  | next (state : State) (outputs : List Output)

abbrev Outcome (State Output Reason : Type) := List Output × Except Reason State

variable {State Input Output Reason : Type}

def drain (step : State → Step State Output Reason) : Nat → State → Outcome State Output Reason
  | 0, state => ([], .ok state)
  | rounds + 1, state =>
    match step state with
    | .wait => ([], .ok state)
    | .close reason => ([], .error reason)
    | .next after outputs => (outputs ++ (drain step rounds after).1, (drain step rounds after).2)

def Outcome.andThen (first : Outcome State Output Reason)
    (second : State → Outcome State Output Reason) : Outcome State Output Reason :=
  match first.2 with
  | .ok state => (first.1 ++ (second state).1, (second state).2)
  | .error reason => (first.1, .error reason)

/-- A step function whose steps use up a rank, and a way to add input. -/
structure Machine (State Input Output Reason : Type) where
  step : State → Step State Output Reason
  extend : State → List Input → State
  rank : State → Nat
  extend_append : ∀ state first second,
    extend (extend state first) second = extend state (first ++ second)
  rank_lt : ∀ {state after outputs}, step state = .next after outputs → rank after < rank state
  next_extend : ∀ {state after outputs} input, step state = .next after outputs →
    step (extend state input) = .next (extend after input) outputs
  close_extend : ∀ {state reason} input, step state = .close reason →
    step (extend state input) = .close reason

namespace Machine

variable (machine : Machine State Input Output Reason)

def settle (state : State) : Outcome State Output Reason :=
  drain machine.step (machine.rank state + 1) state

variable {machine} {state : State}

theorem drain_rounds {rounds : Nat} (enough : machine.rank state < rounds) :
    drain machine.step rounds state = machine.settle state := by
  induction rounds using Nat.strongRecOn generalizing state with
  | ind rounds ih =>
    obtain ⟨fewer, rfl⟩ : ∃ fewer, rounds = fewer + 1 := ⟨rounds - 1, by omega⟩
    rw [settle, drain, drain]
    cases stepped : machine.step state with
    | wait => rfl
    | close reason => rfl
    | next after outputs =>
      have smaller := machine.rank_lt stepped
      simp only
      rw [ih fewer (by omega) (by omega), ih _ (by omega) (by omega)]

theorem settle_of_wait (waits : machine.step state = .wait) :
    machine.settle state = ([], .ok state) := by
  rw [settle, drain, waits]

theorem settle_of_close {reason : Reason} (closes : machine.step state = .close reason) :
    machine.settle state = ([], .error reason) := by
  rw [settle, drain, closes]

theorem settle_of_next {after : State} {outputs : List Output}
    (stepped : machine.step state = .next after outputs) :
    machine.settle state = (outputs ++ (machine.settle after).1, (machine.settle after).2) := by
  rw [settle, drain, stepped]
  simp only
  rw [drain_rounds (machine.rank_lt stepped)]

theorem step_of_settle {final : State} {outputs : List Output}
    (settled : machine.settle state = (outputs, .ok final)) : machine.step final = .wait := by
  induction rank : machine.rank state using Nat.strongRecOn generalizing state outputs with
  | ind value ih =>
    cases stepped : machine.step state with
    | wait =>
      rw [settle_of_wait stepped] at settled
      cases settled
      exact stepped
    | close reason =>
      rw [settle_of_close stepped] at settled
      cases settled
    | next after others =>
      rw [settle_of_next stepped] at settled
      exact ih _ (rank ▸ machine.rank_lt stepped) (Prod.ext rfl (Prod.ext_iff.mp settled).2) rfl

theorem settle_extend (state : State) (input : List Input) :
    machine.settle (machine.extend state input) = (machine.settle state).andThen fun final =>
        machine.settle (machine.extend final input) := by
  induction rank : machine.rank state using Nat.strongRecOn generalizing state with
  | ind value ih =>
    cases stepped : machine.step state with
    | wait =>
      rw [settle_of_wait stepped]
      rfl
    | close reason =>
      rw [settle_of_close stepped, Outcome.andThen,
        settle_of_close (machine.close_extend input stepped)]
    | next after outputs =>
      rw [settle_of_next (machine.next_extend input stepped), settle_of_next stepped,
        ih _ (rank ▸ machine.rank_lt stepped) after rfl]
      cases settled : (machine.settle after).2 with
      | ok final => simp [Outcome.andThen, settled]
      | error reason => simp [Outcome.andThen, settled]

end Machine

/-! ## One reader seen as another -/

def Step.map {Other : Type} (view : State → Other) :
    Step State Output Reason → Step Other Output Reason
  | .wait => .wait
  | .close reason => .close reason
  | .next state outputs => .next (view state) outputs

def Outcome.map {Other : Type} (view : State → Other)
    (outcome : Outcome State Output Reason) : Outcome Other Output Reason :=
  (outcome.1, outcome.2.map view)

variable {outcome : Outcome State Output Reason} {state : State}

section

variable {Other : Type} {view : State → Other}

theorem Outcome.map_eq_error_iff {reason : Reason} :
    (outcome.map view).2 = .error reason ↔ outcome.2 = .error reason := by
  obtain ⟨outputs, result⟩ := outcome
  cases result with
  | ok state => simp [Outcome.map, Except.map]
  | error other => simp [Outcome.map, Except.map]

theorem Outcome.map_eq_ok (isOk : outcome.2 = .ok state) :
    (outcome.map view).2 = .ok (view state) := by
  rw [Outcome.map, isOk]
  rfl

theorem Outcome.exists_ok_map_iff :
    (∃ state, (outcome.map view).2 = .ok state) ↔ ∃ state, outcome.2 = .ok state := by
  obtain ⟨outputs, result⟩ := outcome
  cases result with
  | ok state => simp [Outcome.map, Except.map]
  | error other => simp [Outcome.map, Except.map]

theorem drain_map {step : State → Step State Output Reason}
    {seen : Other → Step Other Output Reason}
    (respects : ∀ state, seen (view state) = (step state).map view) (rounds : Nat) (state : State) :
    drain seen rounds (view state) = (drain step rounds state).map view := by
  induction rounds generalizing state with
  | zero => rfl
  | succ rounds ih =>
    rw [drain, drain, respects]
    cases step state with
    | wait => rfl
    | close reason => rfl
    | next after outputs =>
      simp [Step.map]
      rw [ih]
      rfl

end

theorem drain_invariant {step : State → Step State Output Reason} {holds : State → Prop}
    (keeps : ∀ {state after outputs}, holds state → step state = .next after outputs → holds after)
    {rounds : Nat} {final : State} {outputs : List Output} (start : holds state)
    (drained : drain step rounds state = (outputs, .ok final)) :
    holds final := by
  induction rounds generalizing state outputs with
  | zero =>
    cases drained
    exact start
  | succ rounds ih =>
    rw [drain] at drained
    cases stepped : step state with
    | wait =>
      rw [stepped] at drained
      cases drained
      exact start
    | close reason =>
      rw [stepped] at drained
      cases drained
    | next after others =>
      rw [stepped] at drained
      exact ih (keeps start stepped) (Prod.ext rfl (Prod.ext_iff.mp drained).2)

theorem drain_close {step : State → Step State Output Reason} {allowed : Reason → Prop}
    (closes : ∀ {state reason}, step state = .close reason → allowed reason)
    {rounds : Nat} {outputs : List Output} {reason : Reason}
    (drained : drain step rounds state = (outputs, .error reason)) : allowed reason := by
  induction rounds generalizing state outputs with
  | zero => cases drained
  | succ rounds ih =>
    rw [drain] at drained
    cases stepped : step state with
    | wait =>
      rw [stepped] at drained
      cases drained
    | close other =>
      rw [stepped] at drained
      cases drained
      exact closes stepped
    | next after others =>
      rw [stepped] at drained
      exact ih (Prod.ext rfl (Prod.ext_iff.mp drained).2)

end IncrementalReader

end LodeChain

import Mathlib.Tactic.Common

/-!
# Jobs and the threads that run them

`tools::threadpool` keeps for each thread how deep it is inside of jobs and whether it runs a leaf.
A job is run by `submit` on the calling thread, or by `run` on a thread of the pool or one that
waits. It may use the pool itself, and then its calls change the thread it runs on.
-/

namespace LodeChain

structure Thread where
  depth : Int
  isLeaf : Bool
  deriving DecidableEq

namespace ThreadPool

/-- What a job makes of the thread that runs it, and whether it throws a `std::exception`. Only
calls of `submit` and `run` change the depth, and none of them leaves it lower. -/
structure Job where
  run : Thread → Thread × Bool
  deeper : ∀ thread, thread.depth ≤ (run thread).1.depth

/-- A job with its waiter. -/
structure Entry where
  wo : Option Nat
  f : Job
  leaf : Bool

end ThreadPool

structure ThreadPool where
  active : Nat
  max : Nat
  queue : List ThreadPool.Entry

namespace ThreadPool

variable (pool : ThreadPool) (thread : Thread) (entry : Entry)

def runsInline : Bool :=
  !entry.leaf && (pool.active == pool.max && !pool.queue.isEmpty || decide (0 < thread.depth))

/-- `submit`: the pool when the lock is released, the thread afterwards and whether an exception is
propagated. -/
def submit : ThreadPool × Thread × Bool :=
  if thread.isLeaf then (pool, thread, true)
  else if pool.runsInline thread entry then
    let (left, threw) := entry.f.run ⟨thread.depth + 1, entry.leaf⟩
    if threw then (pool, left, true) else (pool, ⟨left.depth - 1, false⟩, false)
  else
    let queue := if entry.leaf then entry :: pool.queue else pool.queue ++ [entry]
    (⟨pool.active, pool.max, queue⟩, thread, false)

/-- What `run` does with the job it has taken from the queue; `none` when it uses a null waiter. -/
def execute : Option Thread :=
  let (left, threw) := entry.f.run ⟨thread.depth + 1, entry.leaf⟩
  if threw ∧ entry.wo = none then none else some ⟨left.depth - 1, false⟩

theorem submit_deeper : thread.depth ≤ (pool.submit thread entry).2.1.depth := by
  have deeper := entry.f.deeper ⟨thread.depth + 1, entry.leaf⟩
  rcases ran : entry.f.run ⟨thread.depth + 1, entry.leaf⟩ with ⟨left, threw⟩
  simp only [ran] at deeper
  simp only [submit, ran]
  split_ifs
  all_goals
    dsimp only
    omega

/-- A job that submits another and catches its exception. -/
def Job.submitting : Job :=
  ⟨fun thread => ((pool.submit thread entry).2.1, false),
    fun thread => pool.submit_deeper thread entry⟩

/-- The thread is as before unless a job that `submit` runs itself throws or leaves it deeper, or
`run` is called inside of a leaf, for a job that leaves it deeper, or for a throwing job that nobody
waits for. -/
theorem submit_execute_iff (pool : ThreadPool) (thread : Thread) (entry : Entry) :
    ((pool.submit thread entry).2.1 = thread ↔
      thread.isLeaf = true ∨ pool.runsInline thread entry = false ∨
        (entry.f.run ⟨thread.depth + 1, entry.leaf⟩).2 = false ∧
          (entry.f.run ⟨thread.depth + 1, entry.leaf⟩).1.depth = thread.depth + 1) ∧
    (execute thread entry = some thread ↔ thread.isLeaf = false ∧
      ((entry.f.run ⟨thread.depth + 1, entry.leaf⟩).2 = true → entry.wo ≠ none) ∧
        (entry.f.run ⟨thread.depth + 1, entry.leaf⟩).1.depth = thread.depth + 1) := by
  have deeper := entry.f.deeper ⟨thread.depth + 1, entry.leaf⟩
  obtain ⟨depth, isLeaf⟩ := thread
  dsimp only at deeper ⊢
  rcases ran : entry.f.run ⟨depth + 1, entry.leaf⟩ with ⟨left, threw⟩
  rw [ran] at deeper
  have restored : left.depth - 1 = depth ↔ left.depth = depth + 1 := by omega
  have changed : left ≠ ⟨depth, false⟩ := by
    rintro rfl
    dsimp only at deeper
    omega
  constructor
  · cases isLeaf <;> cases inline : pool.runsInline ⟨depth, _⟩ entry <;>
      cases threw <;> simp [submit, inline, ran, restored, changed]
  · cases isLeaf <;> cases threw <;> simp [execute, ran, restored]

def Job.returning (threw : Bool) : Job :=
  ⟨fun thread => (thread, threw), fun _ => Int.le_refl _⟩

def busyPool : ThreadPool :=
  ⟨1, 1, [⟨none, .returning false, false⟩]⟩

theorem submit_execute_changed :
    (busyPool.submit ⟨0, false⟩ ⟨some 1, .returning true, false⟩).2 = (⟨1, false⟩, true) ∧
    (busyPool.submit ⟨0, false⟩
      ⟨some 1, .submitting busyPool ⟨some 1, .returning true, false⟩, false⟩).2 =
        (⟨1, false⟩, false) ∧
    execute ⟨1, true⟩ ⟨some 1, .returning false, false⟩ = some ⟨1, false⟩ ∧
    execute ⟨0, false⟩ ⟨none, .returning true, false⟩ = none := by
  decide

end ThreadPool

end LodeChain

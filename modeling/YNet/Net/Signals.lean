import YNet.Net.ThreadPool

-- The thread pool with the notifications of its condition variable. A thread that submits a task notifies
-- one worker when it has left its critical section, and the destructor notifies all of them.
namespace YNet.ThreadPool

variable {τ : Type}

def Worker.woken : Worker τ → Worker τ
  | waiting => awake
  | worker  => worker

-- The workers below `k` are woken up.
def World.wakeBelow (s : World τ) (k : Nat) : World τ :=
  { s with workers := fun w => if w < k then (s.workers w).woken else s.workers w }

-- The calls of `notify_one` and of `notify_all` that are still to be made.
structure Signals (τ : Type) extends World τ where
  pending : Nat
  alarm   : Bool

namespace Signals

def start : Signals τ where
  toWorld := .start
  pending := 0
  alarm   := false

inductive Move (τ : Type)
  | pool (a : Act τ)
  | notifyOne (w : Option Nat)
  | notifyAll

-- A worker can also wake up without being notified.
inductive Step (numThreads : Nat) : Signals τ → Move τ → Signals τ → Prop
  | submit :
    (ThreadPool.Step numThreads s.toWorld (.submit task) s') →
    Step numThreads s (.pool (.submit task)) { s with toWorld := s', pending := s.pending + 1 }
  | stop :
    (ThreadPool.Step numThreads s.toWorld .stop s') →
    Step numThreads s (.pool .stop) { s with toWorld := s', alarm := true }
  | pool :
    (ThreadPool.Step numThreads s.toWorld a s') → (∀ task, a ≠ .submit task) → (a ≠ .stop) →
    Step numThreads s (.pool a) { s with toWorld := s' }
  | notifyOne :
    (s.pending = k + 1) → (w < numThreads) → (s.workers w = .waiting) →
    Step numThreads s (.notifyOne (some w)) { s with toWorld := s.setWorker w .awake, pending := k }
  | notifyNone :
    (s.pending = k + 1) → (∀ w < numThreads, s.workers w ≠ .waiting) →
    Step numThreads s (.notifyOne none) { s with pending := k }
  | notifyAll :
    (s.alarm = true) →
    Step numThreads s .notifyAll { s with toWorld := s.wakeBelow numThreads, alarm := false }

-- What a move is without the notifications.
def acts (moves : List (Move τ)) : List (Act τ) :=
  moves.filterMap fun
    | .pool a => some a
    | _       => none

end Signals
end YNet.ThreadPool

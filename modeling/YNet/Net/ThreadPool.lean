import YNet.Lib.Run

-- The workers of a thread pool, the threads that submit tasks to it, and its destructor, interleaved at
-- their critical sections.
namespace YNet.ThreadPool

variable {τ : Type}

-- A worker that is `awake` is about to lock the mutex and to test the predicate of the wait.
inductive Worker (τ : Type)
  | awake
  | waiting
  | running (task : τ)
  | exited

-- The destructor sets `destroying` when it starts, and `stop` in its critical section.
structure World (τ : Type) where
  tasks      : List τ
  stop       : Bool
  destroying : Bool
  workers    : Nat → Worker τ

namespace World

def start : World τ where
  tasks      := []
  stop       := false
  destroying := false
  workers _  := .awake

def setWorker (s : World τ) (w : Nat) (worker : Worker τ) : World τ :=
  { s with workers := Function.update s.workers w worker }

def push (s : World τ) (task : τ) : World τ :=
  { s with tasks := s.tasks ++ [task] }

variable {s : World τ} {worker : Worker τ}

@[simp]
theorem workers_setWorker_self : (s.setWorker w worker).workers w = worker :=
  Function.update_self ..

@[simp]
theorem workers_setWorker_of_ne (h : v ≠ w) : (s.setWorker w worker).workers v = s.workers v :=
  Function.update_of_ne h ..

@[simp]
theorem tasks_setWorker : (s.setWorker w worker).tasks = s.tasks :=
  rfl

@[simp]
theorem stop_setWorker : (s.setWorker w worker).stop = s.stop :=
  rfl

end World

inductive Act (τ : Type)
  | submit (task : τ)
  | wait (w : Nat)
  | wake (w : Nat)
  | take (w : Nat) (task : τ)
  | finish (w : Nat) (task : τ)
  | exit (w : Nat)
  | destroy
  | stop

-- A worker that waits can wake up at any time, be it notified or not.
inductive Step (numThreads : Nat) : World τ → Act τ → World τ → Prop
  -- Other threads submit no tasks when the destructor has started.
  | submit :
    (s.destroying = false) → Step numThreads s (.submit task) (s.push task)
  | resubmit :
    (w < numThreads) → (s.workers w = .running task) → Step numThreads s (.submit task') (s.push task')
  | wait :
    (w < numThreads) → (s.workers w = .awake) → (s.stop = false) → (s.tasks = []) →
    Step numThreads s (.wait w) (s.setWorker w .waiting)
  | wake :
    (w < numThreads) → (s.workers w = .waiting) → Step numThreads s (.wake w) (s.setWorker w .awake)
  | take :
    (w < numThreads) → (s.workers w = .awake) → (s.tasks = task :: tasks) →
    Step numThreads s (.take w task) ({ s with tasks }.setWorker w (.running task))
  | finish :
    (w < numThreads) → (s.workers w = .running task) →
    Step numThreads s (.finish w task) (s.setWorker w .awake)
  | exit :
    (w < numThreads) → (s.workers w = .awake) → (s.stop = true) → (s.tasks = []) →
    Step numThreads s (.exit w) (s.setWorker w .exited)
  | destroy :
    Step numThreads s .destroy { s with destroying := true }
  | stop :
    (s.destroying = true) → Step numThreads s .stop { s with stop := true }

end YNet.ThreadPool

import YNet.Lib.Run

-- The event loop of a server, the workers of its thread pool and the descriptors that the kernel hands
-- out, interleaved at their critical sections and system calls. What clients do, shows only in the
-- events, as a client that disconnects leaves the descriptor of the server open.
namespace YNet.Workers

-- A connection object with the descriptor it has been created with. When it is closed, its descriptor
-- is -1.
structure Conn where
  fd     : Nat
  isOpen : Bool

-- A call of `handleRequest`. It refers to its connection object.
structure Task where
  fd   : Nat
  conn : Nat

-- How far a worker has come with a task. Only the handler of a WebSocket closes a connection. With the
-- last access to the table or to the event loop the task is left.
inductive Stage
  | serving
  | upgraded
  | closed
  | left

structure Job extends Task where
  stage : Stage

inductive Event
  | listener
  | client (fd : Nat)

-- Where the event loop is, with the connection that it refers to and the events that are still to be
-- handled.
inductive Loop
  | waiting
  | handling (events : List Event)
  | accepted (conn : Nat) (events : List Event)
  | added (conn : Nat) (events : List Event)
  | removed (fd : Nat) (events : List Event)
  | found (fd : Nat) (conn : Option Nat) (events : List Event)
  | stopped

-- The connection that the event loop refers to.
def Loop.conn : Loop → Option Nat
  | .accepted c _ | .added c _ => some c
  | .found _ c _               => c
  | _                          => none

-- The connection objects are numbered. The kernel knows whose descriptors are open and which ones are
-- armed in the epoll instance of the event loop.
structure World where
  conns       : Nat → Conn
  count       : Nat
  fds         : Nat → Option Nat
  armed       : Nat → Bool
  connections : Nat → Option (Option Nat)
  loop        : Loop
  tasks       : List Task
  workers     : Nat → Option Job
  running     : Bool
  listening   : Bool

namespace World

def start : World where
  conns _       := { fd := 0, isOpen := false }
  count         := 0
  fds _         := none
  armed _       := false
  connections _ := none
  loop          := .waiting
  tasks         := []
  workers _     := none
  running       := true
  listening     := true

-- The calls of `epoll_ctl` and `close`. A descriptor that is closed is no longer armed.
def add (s : World) (fd : Nat) : World :=
  { s with armed := Function.update s.armed fd (s.fds fd).isSome }

def remove (s : World) (fd : Nat) : World :=
  { s with armed := Function.update s.armed fd false }

def close (s : World) (c : Nat) : World :=
  { s with
    conns := Function.update s.conns c { s.conns c with isOpen := false }
    fds   := Function.update s.fds (s.conns c).fd none
    armed := Function.update s.armed (s.conns c).fd false }

def setJob (s : World) (w : Nat) (job : Option Job) : World :=
  { s with workers := Function.update s.workers w job }

def setStage (s : World) (w : Nat) (job : Job) (stage : Stage) : World :=
  s.setJob w (some { job with stage })

def setEntry (s : World) (fd : Nat) (entry : Option (Option Nat)) : World :=
  { s with connections := Function.update s.connections fd entry }

-- Whether there is a reference to a connection object.
def Held (s : World) (c : Nat) : Prop :=
  (∃ fd, s.connections fd = some (some c)) ∨ (∃ task ∈ s.tasks, task.conn = c) ∨
  (∃ w job, s.workers w = some job ∧ job.conn = c) ∨ s.loop.conn = some c

end World

inductive Act
  | wait (events : List Event)
  | again
  | accept (fd : Nat)
  | refuse
  | add
  | insert
  | remove
  | lookup
  | submit
  | skip
  | take (w : Nat)
  | upgrade (w : Nat)
  | close (w : Nat)
  | erase (w fd conn : Nat)
  | rearm (w : Nat)
  | finish (w : Nat)
  | destroy (conn : Nat)
  | stop
  | unlisten
  | clear

inductive Step (numThreads : Nat) : World → Act → World → Prop
  | wait :
    (s.loop = .waiting) → (events.Nodup) → (∀ fd, .client fd ∈ events → s.armed fd) →
    Step numThreads s (.wait events) { s with loop := .handling events }
  | again :
    (s.loop = .handling []) →
    Step numThreads s .again { s with loop := if s.running then .waiting else .stopped }
  -- The kernel hands out a descriptor that is not open.
  | accept :
    (s.loop = .handling (.listener :: events)) → (s.listening) → (s.fds fd = none) →
    Step numThreads s (.accept fd)
      { s with conns := Function.update s.conns s.count { fd, isOpen := true }, count := s.count + 1,
               fds := Function.update s.fds fd (some s.count), loop := .accepted s.count events }
  -- Nobody is there to be accepted. This is also what comes of an event of a listener that has been
  -- closed, as its descriptor is no key of a connection.
  | refuse :
    (s.loop = .handling (.listener :: events)) →
    Step numThreads s .refuse { s with loop := .handling events }
  | add :
    (s.loop = .accepted c events) →
    Step numThreads s .add { s.add (s.conns c).fd with loop := .added c events }
  | insert :
    (s.loop = .added c events) →
    Step numThreads s .insert { s.setEntry (s.conns c).fd (some (some c)) with loop := .handling events }
  | remove :
    (s.loop = .handling (.client fd :: events)) →
    Step numThreads s .remove { s.remove fd with loop := .removed fd events }
  -- The access to a key that is not in the map, inserts a null pointer.
  | lookup :
    (s.loop = .removed fd events) →
    Step numThreads s .lookup
      { s.setEntry fd (some (s.connections fd).join) with loop := .found fd (s.connections fd).join events }
  | submit :
    (s.loop = .found fd (some c) events) →
    Step numThreads s .submit { s with tasks := s.tasks ++ [{ fd, conn := c }], loop := .handling events }
  | skip :
    (s.loop = .found fd none events) →
    Step numThreads s .skip { s with loop := .handling events }
  | take :
    (s.tasks = task :: tasks) → (w < numThreads) → (s.workers w = none) →
    Step numThreads s (.take w) { s.setJob w (some { task with stage := .serving }) with tasks }
  | upgrade :
    (s.workers w = some job) → (job.stage = .serving) →
    Step numThreads s (.upgrade w) (s.setStage w job .upgraded)
  | close :
    (s.workers w = some job) → (job.stage = .upgraded) →
    Step numThreads s (.close w) ((s.close job.conn).setStage w job .closed)
  | erase :
    (s.workers w = some job) → (job.stage ≠ .left) →
    Step numThreads s (.erase w job.fd job.conn) ((s.setEntry job.fd none).setStage w job .left)
  | rearm :
    (s.workers w = some job) → (job.stage = .serving) →
    Step numThreads s (.rearm w) ((s.add job.fd).setStage w job .left)
  | finish :
    (s.workers w = some job) → (job.stage = .left) →
    Step numThreads s (.finish w) (s.setJob w none)
  -- The destructor runs when the last reference is gone.
  | destroy :
    (c < s.count) → ((s.conns c).isOpen) → (¬s.Held c) →
    Step numThreads s (.destroy c) (s.close c)
  | stop :
    Step numThreads s .stop { s with running := false }
  | unlisten :
    (s.running = false) → Step numThreads s .unlisten { s with listening := false }
  | clear :
    (s.listening = false) → Step numThreads s .clear { s with connections := fun _ => none }

end YNet.Workers

import YNet.Core.Protocol
import YNet.Core.Workers

-- The server as a whole: the workers of the thread pool run the code of `handleRequest`, each on the
-- connection of its task, while the event loop goes on.
namespace YNet

-- A call of `handleRequest`, with the events that it has reported so far.
structure RequestCall (σ : Type) where
  events  : List Event
  process : Process σ Event

structure System (σ : Type) where
  world : Workers.World
  app   : σ
  calls : Nat → Option (RequestCall σ)

-- The steps that a worker makes, and that the code decides on.
def Workers.Act.IsWorker : Workers.Act → Prop
  | take _ | upgrade _ | close _ | erase .. | rearm _ | finish _ => True
  | _                                                           => False

-- What the events do to the table of connections and to the event loop.
def Workers.World.report (s : Workers.World) (w : Nat) (job : Workers.Job) : YNet.Event → Workers.World
  | .webSocket => s.setStage w job .upgraded
  | .erase     => (s.setEntry job.fd none).setStage w job .left
  | .rearm     => (s.add job.fd).setStage w job .left
  | _          => s

namespace System

variable {σ : Type}

def start (app : σ) : System σ where
  world   := .start
  app     := app
  calls _ := none

def setCall (s : System σ) (w : Nat) (call : Option (RequestCall σ)) : System σ :=
  { s with calls := Function.update s.calls w call }

inductive Move
  | world (a : Workers.Act)
  | take (w : Nat)
  | app (w : Nat)
  | report (w : Nat) (task : Workers.Task) (e : Event)
  | close (w : Nat)
  | finish (w : Nat)

-- The code alone decides when a worker erases its entry, rearms its descriptor or calls a handler. Nothing
-- is assumed of what arrives on a connection.
inductive Step (server : Server σ) (numThreads : Nat) : System σ → Move → System σ → Prop
  | world :
    (Workers.Step numThreads s.world a s') → (¬a.IsWorker) → Step server numThreads s (.world a) { s with world := s' }
  | take (conn : Connection) :
    (Workers.Step numThreads s.world (.take w) s') →
    Step server numThreads s (.take w) (System.setCall { s with world := s' } w (some ⟨[], server.handleRequest conn⟩))
  | app :
    (s.calls w = some ⟨events, .act update rest⟩) →
    Step server numThreads s (.app w) (System.setCall { s with app := update s.app } w (some ⟨events, rest s.app⟩))
  | report :
    (s.calls w = some ⟨events, .emit e t⟩) → (s.world.workers w = some job) →
    Step server numThreads s (.report w job.toTask e)
      (System.setCall { s with world := s.world.report w job e } w (some ⟨events ++ [e], t⟩))
  -- The handler of a WebSocket closes the connection.
  | close :
    (s.calls w = some call) → (call.events.getLast? = some .webSocket) → (s.world.workers w = some job) →
    ((s.world.conns job.conn).isOpen) →
    Step server numThreads s (.close w) { s with world := (s.world.close job.conn).setStage w job .closed }
  -- The call returns. A handler that runs forever stops without one of these events.
  | finish :
    (s.calls w = some ⟨events, .stop⟩) → (events.getLast? = some .erase ∨ events.getLast? = some .rearm) →
    Step server numThreads s (.finish w) (System.setCall { s with world := s.world.setJob w none } w none)

-- The events on a connection, in the order in which they happen.
def log (c : Nat) (moves : List Move) : List Event :=
  moves.filterMap fun
    | .report _ task e => if task.conn = c then some e else none
    | _                => none

-- What a move is on the level of the workers.
def acts : Move → List Workers.Act
  | .world a                   => [a]
  | .take w                    => [.take w]
  | .report w _ .webSocket     => [.upgrade w]
  | .report w task .erase      => [.erase w task.fd task.conn]
  | .report w _ .rearm         => [.rearm w]
  | .close w                   => [.close w]
  | .finish w                  => [.finish w]
  | _                          => []

end System
end YNet

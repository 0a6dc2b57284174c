import YNet.Core.Response
import YNet.Net.Frames
import YNet.Net.WebSocket

open Finset

namespace YNet

-- The writing side of a connection. The outcome of a call is `none` when the buffer of the socket is
-- full, and otherwise a number of bytes that are taken, at least one and at most what is offered.
structure Sink where
  outcomes : Nat → Option Nat
  calls    : Nat   := 0
  accepted : Bytes := []

namespace Sink

def write (sink : Sink) (buf : Bytes) : Option Nat × Sink :=
  match sink.outcomes sink.calls with
  | none   => (none, { sink with calls := sink.calls + 1 })
  | some k =>
    let n := min (max k 1) buf.length
    (some n, { sink with calls := sink.calls + 1, accepted := sink.accepted ++ buf.take n })

theorem write_progress {sink : Sink} (h : sink.write rest = (some n, sink')) (hn : n ≠ rest.length) :
    1 ≤ n ∧ n < rest.length := by
  unfold write at h
  split at h
  · cases h
  · cases h
    omega

-- The loop of `Response::send`. What is left of the data is the part behind the offset.
def writeLoop (sink : Sink) (rest : Bytes) : Sink :=
  match _h : sink.write rest with
  | (none, sink')   => sink'
  | (some n, sink') => if _hn : n = rest.length then sink' else sink'.writeLoop (rest.drop n)
termination_by rest.length
decreasing_by
  have ⟨_, _⟩ := write_progress _h _hn
  simp only [List.length_drop]
  omega

def sendFrame (sink : Sink) (data : Bytes) (opcode : UInt8) : Sink :=
  (sink.write (WebSocket.frameBytes data opcode)).2

-- The reply of `Server::handleWebSocket` that switches the protocols.
def sendHandshake (sink : Sink) (digest : Bytes → Bytes) (req : Request) : Sink :=
  (sink.write (WebSocket.handshake digest req)).2

-- The message is all that has been accepted since.
def Delivers (sink sink' : Sink) (message : Bytes) : Prop :=
  sink'.accepted = sink.accepted ++ message

-- The calls in front of the first one without a result take `size` bytes in all.
def Takes (sink : Sink) (size : Nat) : Prop :=
  ∃ n, (∀ i < n, (sink.outcomes (sink.calls + i)).isSome) ∧
    size ≤ ∑ i ∈ range n, max ((sink.outcomes (sink.calls + i)).getD 1) 1

-- The next call takes `size` bytes.
def TakesAtOnce (sink : Sink) (size : Nat) : Prop :=
  ∃ k, sink.outcomes sink.calls = some k ∧ size ≤ max k 1

end Sink

def Response.send (order : Order) (res : Response) (sink : Sink) : Sink :=
  sink.writeLoop (res.build order).1

end YNet

import YNet.Cpp.Bytes
import YNet.Lib.BigEndian

-- The frames of a WebSocket connection.
namespace YNet.WebSocket

-- What decides how much one read delivers, given the number of bytes it asks for. A buffer that is
-- not initialised holds stale bytes where nothing is delivered.
structure Delivery where
  count : Nat → Nat
  stale : Nat → UInt8

-- The connection of a WebSocket with the bytes that arrive on it and the ones that have been sent. When
-- the deliveries are used up, each read delivers what is there. The descriptor is readable as long as bytes
-- are left: no read would block, and TLS holds none of them back.
structure Channel where
  incoming   : Bytes
  deliveries : List Delivery := []
  isOpen     : Bool := true
  sent       : Bytes := []

namespace Channel

-- A buffer that is not initialised.
def buffer (ch : Channel) (n : Nat) : Bytes :=
  match ch.deliveries with
  | []     => List.replicate n 0
  | d :: _ => (List.range n).map d.stale

-- How many bytes the next read delivers if there are as many. It is at least one.
def amount (ch : Channel) (n : Nat) : Nat :=
  match ch.deliveries with
  | []     => n
  | d :: _ => min n (max 1 (d.count n))

-- A read that asks for no bytes, or finds none, returns no positive number.
def read (ch : Channel) (buf : Bytes) : Option Bytes × Channel :=
  if ch.isOpen = false ∨ buf = [] ∨ ch.incoming = [] then (none, ch)
  else
    let bytes := ch.incoming.take (ch.amount buf.length)
    (some (bytes ++ buf.drop bytes.length),
      { ch with incoming := ch.incoming.drop bytes.length, deliveries := ch.deliveries.tail })

def write (ch : Channel) (bytes : Bytes) : Channel :=
  if ch.isOpen then { ch with sent := ch.sent ++ bytes } else ch

def close (ch : Channel) : Channel :=
  { ch with isOpen := false }

end Channel

def maxPayload : Nat :=
  16 * 1024 * 1024

-- The length field of a frame without a mask.
def sizeBytes (size : Nat) : Bytes :=
  if size ≤ 125 then [UInt8.ofNat size]
  else if size ≤ 65535 then 126 :: BigEndian.encode 2 size
  else 127 :: BigEndian.encode 8 size

def frameBytes (data : Bytes) (opcode : UInt8) : Bytes :=
  (0x80 ||| opcode) :: sizeBytes data.length ++ data

def sendFrame (ch : Channel) (data : Bytes) (opcode : UInt8) : Channel :=
  ch.write (frameBytes data opcode)

-- The part of `readFrame` that reads the extended length.
def readLength (ch : Channel) (payloadLen : Nat) : Option Nat × Channel :=
  if payloadLen = 126 then
    match ch.read (ch.buffer 2) with
    | (none, ch)     => (none, ch)
    | (some ext, ch) => (some (BigEndian.decode ext), ch)
  else if payloadLen = 127 then
    match ch.read (ch.buffer 8) with
    | (none, ch)     => (none, ch)
    | (some ext, ch) => (some (BigEndian.decode ext), ch)
  else (some payloadLen, ch)

def readMask (ch : Channel) (masked : Bool) : Option Bytes × Channel :=
  if masked then ch.read (List.replicate 4 0) else (some (List.replicate 4 0), ch)

def applyMask (key payload : Bytes) : Bytes :=
  payload.mapIdx fun i b => b ^^^ key.getD (i % 4) 0

-- The part of `readFrame` that answers to control frames.
def dispatch (ch : Channel) (opcode : UInt8) (payload : Bytes) : Bytes × Channel :=
  if opcode = 0x8 then ([], (sendFrame ch [] 0x8).close)
  else if opcode = 0x9 then (payload, sendFrame ch payload 0xA)
  else (payload, ch)

-- The part of `readFrame` after the length.
def readPayload (ch : Channel) (opcode : UInt8) (masked : Bool) (payloadLen : Nat) : Bytes × Channel :=
  if payloadLen > maxPayload then ([], ch.close)
  else
    match readMask ch masked with
    | (none, ch)     => ([], ch)
    | (some key, ch) =>
      match ch.read (List.replicate payloadLen 0) with
      | (none, ch)         => ([], ch)
      | (some payload, ch) => dispatch ch opcode (if masked then applyMask key payload else payload)

def readFrame (ch : Channel) : Bytes × Channel :=
  match ch.read (ch.buffer 2) with
  | (none, ch)        => ([], ch)
  | (some header, ch) =>
    match readLength ch (header.getD 1 0 &&& 0x7F).toNat with
    | (none, ch)            => ([], ch)
    | (some payloadLen, ch) =>
      readPayload ch (header.getD 0 0 &&& 0x0F) (header.getD 1 0 &&& 0x80 ≠ 0) payloadLen

-- Successive calls of `readFrame`, and the payloads that they return.
def readFrames : Nat → Channel → List Bytes × Channel
  | 0, ch     => ([], ch)
  | n + 1, ch => ((readFrame ch).1 :: (readFrames n (readFrame ch).2).1, (readFrames n (readFrame ch).2).2)

section Length

variable {ch ch' : Channel}

theorem length_read_lt (h : ch.read buf = (some bytes, ch')) : ch'.incoming.length < ch.incoming.length := by
  unfold Channel.read at h
  split at h
  case isTrue => simp at h
  case isFalse hc =>
    have hi : 0 < ch.incoming.length := List.length_pos_of_ne_nil fun hn => hc (.inr (.inr hn))
    have hb : 0 < buf.length := List.length_pos_of_ne_nil fun hn => hc (.inr (.inl hn))
    have ha : 0 < ch.amount buf.length := by
      unfold Channel.amount
      split <;> omega
    cases h
    simp only [List.length_drop, List.length_take]
    omega

theorem length_read_le (h : ch.read buf = (result, ch')) : ch'.incoming.length ≤ ch.incoming.length := by
  cases result
  case some => exact (length_read_lt h).le
  case none =>
    unfold Channel.read at h
    split at h
    case isTrue  => cases h; exact le_rfl
    case isFalse => simp at h

theorem length_readLength_le (h : readLength ch n = (result, ch')) : ch'.incoming.length ≤ ch.incoming.length := by
  unfold readLength at h
  split at h
  case isTrue =>
    split at h
    all_goals
      rename_i hr
      cases h
      exact length_read_le hr
  case isFalse =>
    split at h
    case isFalse => cases h; exact le_rfl
    case isTrue =>
      split at h
      all_goals
        rename_i hr
        cases h
        exact length_read_le hr

theorem length_readMask_le (h : readMask ch masked = (result, ch')) : ch'.incoming.length ≤ ch.incoming.length := by
  unfold readMask at h
  split at h
  case isTrue  => exact length_read_le h
  case isFalse => cases h; exact le_rfl

theorem incoming_sendFrame (ch : Channel) (data : Bytes) (opcode : UInt8) :
    (sendFrame ch data opcode).incoming = ch.incoming := by
  unfold sendFrame Channel.write
  split <;> rfl

theorem incoming_dispatch (ch : Channel) (opcode : UInt8) (payload : Bytes) :
    (dispatch ch opcode payload).2.incoming = ch.incoming := by
  unfold dispatch
  split
  case isTrue => exact incoming_sendFrame ..
  case isFalse =>
    split
    case isTrue  => exact incoming_sendFrame ..
    case isFalse => rfl

theorem length_readPayload_le (ch : Channel) (opcode : UInt8) (masked : Bool) (n : Nat) :
    (readPayload ch opcode masked n).2.incoming.length ≤ ch.incoming.length := by
  unfold readPayload
  split
  case isTrue => exact le_rfl
  case isFalse =>
    split
    case h_1 hm => exact length_readMask_le hm
    case h_2 hm =>
      have hm := length_readMask_le hm
      split
      case h_1 hr => exact (length_read_le hr).trans hm
      case h_2 hr =>
        rw [incoming_dispatch]
        exact (length_read_le hr).trans hm

-- A payload that is not empty takes at least one byte.
theorem length_readFrame_lt (h : (readFrame ch).1 ≠ []) : (readFrame ch).2.incoming.length < ch.incoming.length := by
  unfold readFrame at h ⊢
  match hr : ch.read (ch.buffer 2) with
  | (none, _)          => simp only [hr] at h; contradiction
  | (some header, ch₁) =>
    simp only [hr] at h ⊢
    match hl : readLength ch₁ (header.getD 1 0 &&& 0x7F).toNat with
    | (none, _)      => simp only [hl] at h; contradiction
    | (some _, ch₂)  => exact (length_readPayload_le ..).trans_lt ((length_readLength_le hl).trans_lt (length_read_lt hr))

end Length

-- The calls of the handlers that the application has set.
inductive Call
  | onOpen
  | onMessage (payload : Bytes)
  | onClose
deriving DecidableEq

-- As long as nothing arrives, the loop waits.
def runLoop (ch : Channel) : List Call × Channel :=
  if ch.incoming = [] then ([], ch)
  else if _h : (readFrame ch).1 = [] then ([.onClose], (readFrame ch).2)
  else (.onMessage (readFrame ch).1 :: (runLoop (readFrame ch).2).1, (runLoop (readFrame ch).2).2)
termination_by ch.incoming.length
decreasing_by
  all_goals exact length_readFrame_lt ‹_›

-- A descriptor that is not open cannot be added to the epoll instance.
def run (ch : Channel) : List Call × Channel :=
  if ch.isOpen then (.onOpen :: (runLoop ch).1, (runLoop ch).2) else ([], ch)

-- A frame that a peer sends. Its length is encoded in as few bytes as possible.
structure Frame where
  fin       : Bool
  opcode    : UInt8
  key       : Option Bytes
  payload   : Bytes
  opcode_lt : opcode < 16
  length_key     : ∀ k ∈ key, k.length = 4
  length_payload : payload.length < 2 ^ 64

namespace Frame

def encode (f : Frame) : Bytes :=
  ((if f.fin then 0x80 else 0) ||| f.opcode) ::
  match f.key with
  | none     => sizeBytes f.payload.length ++ f.payload
  | some key => (sizeBytes f.payload.length).modifyHead (0x80 ||| ·) ++ key ++ applyMask key f.payload

-- Text and binary frames.
def isData (f : Frame) : Bool :=
  f.opcode = 1 || f.opcode = 2

end Frame
end YNet.WebSocket

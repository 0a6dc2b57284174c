import YNet.Net.Frames

-- A WebSocket with the handlers of an application, which send frames on it.
namespace YNet.WebSocket

-- The arguments of `sendFrame`.
structure Message where
  data   : Bytes
  opcode : UInt8

-- What the application does when it is called: a step on its state, and the frames that it sends. A
-- handler that is not set does nothing.
abbrev Handlers (τ : Type) :=
  Call → τ → τ × List Message

def sendAll (ch : Channel) (messages : List Message) : Channel :=
  messages.foldl (fun ch m => sendFrame ch m.data m.opcode) ch

variable {τ : Type}

def Handlers.call (handlers : Handlers τ) (c : Call) (x : τ × Channel) : τ × Channel :=
  ((handlers c x.1).1, sendAll x.2 (handlers c x.1).2)

theorem incoming_sendAll (ch : Channel) (messages : List Message) : (sendAll ch messages).incoming = ch.incoming := by
  induction messages generalizing ch with
  | nil              => rfl
  | cons m messages hi => exact (hi _).trans (incoming_sendFrame ..)

-- The loop of `run` with what the handlers do.
def serveLoop (handlers : Handlers τ) (x : τ × Channel) : τ × Channel :=
  if x.2.incoming = [] then x
  else if _h : (readFrame x.2).1 = [] then handlers.call .onClose (x.1, (readFrame x.2).2)
  else serveLoop handlers (handlers.call (.onMessage (readFrame x.2).1) (x.1, (readFrame x.2).2))
termination_by x.2.incoming.length
decreasing_by
  rw [Handlers.call, incoming_sendAll]
  exact length_readFrame_lt _h

def serve (handlers : Handlers τ) (x : τ × Channel) : τ × Channel :=
  if x.2.isOpen then serveLoop handlers (handlers.call .onOpen x) else x

section Peer

-- How a peer reads a frame without a mask.
def readSize : Bytes → Option (Nat × Bytes)
  | []        => none
  | b :: rest =>
    if b < 126 then some (b.toNat, rest)
    else
      let width := if b = 126 then 2 else 8
      if b < 128 ∧ width ≤ rest.length then some (BigEndian.decode (rest.take width), rest.drop width) else none

def Message.read : Bytes → Option (Message × Bytes)
  | []        => none
  | b :: rest =>
    match readSize rest with
    | none              => none
    | some (size, rest) =>
      if b &&& 0xF0 = 0x80 ∧ size ≤ rest.length then
        some ({ data := rest.take size, opcode := b &&& 0x0F }, rest.drop size)
      else none

theorem length_readSize_le (h : readSize s = some (size, rest)) : rest.length ≤ s.length := by
  cases s with
  | nil      => contradiction
  | cons b s =>
    simp only [readSize] at h
    split_ifs at h <;> cases h <;> simp only [List.length_drop, List.length_cons] <;> omega

theorem Message.length_read_lt (h : Message.read s = some (m, rest)) : rest.length < s.length := by
  cases s with
  | nil      => contradiction
  | cons b s =>
    rw [Message.read] at h
    split at h
    case h_1 => contradiction
    case h_2 hs =>
      have := length_readSize_le hs
      split_ifs at h
      cases h
      simp only [List.length_drop, List.length_cons]
      omega

def Message.readAll (s : Bytes) : Option (List Message) :=
  if s = [] then some []
  else
    match _h : Message.read s with
    | none           => none
    | some (m, rest) => (Message.readAll rest).map (m :: ·)
termination_by s.length
decreasing_by exact Message.length_read_lt _h

end Peer

-- What a peer that sends these frames is to read.
def converse (handlers : Handlers τ) : τ → List Frame → List Message
  | _, []          => []
  | t, f :: frames =>
    if maxPayload < f.payload.length then []
    else if f.payload = [] then (handlers .onClose t).2
    else if f.opcode = 8 then [{ data := [], opcode := 0x8 }]
    else
      (if f.opcode = 9 then [{ data := f.payload, opcode := 0xA }] else []) ++
        (handlers (.onMessage f.payload) t).2 ++ converse handlers (handlers (.onMessage f.payload) t).1 frames

end YNet.WebSocket

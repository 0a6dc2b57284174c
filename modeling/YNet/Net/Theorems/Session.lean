import YNet.Net.Session
import YNet.Net.Theorems.Calls

namespace YNet.WebSocket

variable {ch ch' : Channel} {τ : Type} {handlers : Handlers τ}

section Input

-- A channel without what has been sent on it. Nothing that is read depends on this.
def Channel.input (ch : Channel) : Channel :=
  { ch with sent := [] }

theorem read_input (ch : Channel) (buf : Bytes) : ch.input.read buf = ((ch.read buf).1, (ch.read buf).2.input) := by
  by_cases hc : ch.isOpen = false ∨ buf = [] ∨ ch.incoming = []
  case pos => rw [Channel.read, Channel.read, if_pos hc]; exact if_pos hc
  case neg => rw [Channel.read, Channel.read, if_neg hc]; exact if_neg hc

theorem readLength_input (ch : Channel) (n : Nat) :
    readLength ch.input n = ((readLength ch n).1, (readLength ch n).2.input) := by
  have hext (w : Nat) : ch.input.read (ch.input.buffer w) = ((ch.read (ch.buffer w)).1, (ch.read (ch.buffer w)).2.input) :=
    read_input ch _
  unfold readLength
  rw [hext, hext]
  split_ifs
  · obtain ⟨_ | ext, ch₁⟩ := ch.read (ch.buffer 2) <;> rfl
  · obtain ⟨_ | ext, ch₁⟩ := ch.read (ch.buffer 8) <;> rfl
  · rfl

theorem readMask_input (ch : Channel) (masked : Bool) :
    readMask ch.input masked = ((readMask ch masked).1, (readMask ch masked).2.input) := by
  cases masked with
  | false => rfl
  | true  => exact read_input ch _

theorem input_sendFrame (ch : Channel) (data : Bytes) (opcode : UInt8) : (sendFrame ch data opcode).input = ch.input := by
  unfold sendFrame Channel.write
  split <;> rfl

theorem input_sendAll (ch : Channel) (messages : List Message) : (sendAll ch messages).input = ch.input := by
  induction messages generalizing ch with
  | nil                => rfl
  | cons m messages hi => exact (hi _).trans (input_sendFrame ..)

-- What is read is the same, and so is what is left to be read.
def SameInput (x y : Bytes × Channel) : Prop :=
  x.1 = y.1 ∧ x.2.input = y.2.input

theorem dispatch_input (ch : Channel) (opcode : UInt8) (payload : Bytes) :
    SameInput (dispatch ch.input opcode payload) (dispatch ch opcode payload) := by
  have hclose (ch : Channel) : ch.close.input = ch.input.close := rfl
  unfold dispatch
  split_ifs
  · exact ⟨rfl, by rw [hclose, hclose, input_sendFrame, input_sendFrame]; rfl⟩
  · exact ⟨rfl, by rw [input_sendFrame, input_sendFrame]; rfl⟩
  · exact ⟨rfl, rfl⟩

theorem readPayload_input (ch : Channel) (opcode : UInt8) (masked : Bool) (n : Nat) :
    SameInput (readPayload ch.input opcode masked n) (readPayload ch opcode masked n) := by
  unfold readPayload
  rw [readMask_input]
  split_ifs
  · exact ⟨rfl, rfl⟩
  all_goals
    obtain ⟨_ | key, ch₁⟩ := readMask ch masked
    · exact ⟨rfl, rfl⟩
    · simp only [read_input]
      obtain ⟨_ | payload, ch₂⟩ := ch₁.read (List.replicate n 0)
      · exact ⟨rfl, rfl⟩
      · exact dispatch_input ..

theorem readFrame_input (ch : Channel) : SameInput (readFrame ch.input) (readFrame ch) := by
  have hhead : ch.input.read (ch.input.buffer 2) = ((ch.read (ch.buffer 2)).1, (ch.read (ch.buffer 2)).2.input) :=
    read_input ch _
  unfold readFrame
  rw [hhead]
  obtain ⟨_ | header, ch₁⟩ := ch.read (ch.buffer 2)
  · exact ⟨rfl, rfl⟩
  · simp only [readLength_input]
    obtain ⟨_ | n, ch₂⟩ := readLength ch₁ (header.getD 1 0 &&& 0x7F).toNat
    · exact ⟨rfl, rfl⟩
    · exact readPayload_input ..

theorem readFrame_congr (h : ch.input = ch'.input) : SameInput (readFrame ch) (readFrame ch') := by
  have ⟨hp, hc⟩ := readFrame_input ch
  have ⟨hp', hc'⟩ := readFrame_input ch'
  rw [h] at hp hc
  exact ⟨hp.symm.trans hp', hc.symm.trans hc'⟩

-- The state of the application after some calls.
def Handlers.state (handlers : Handlers τ) (t : τ) (calls : List Call) : τ :=
  calls.foldl (fun t c => (handlers c t).1) t

theorem serveLoop_calls {x : τ × Channel} (h : x.2.input = ch.input) :
    (serveLoop handlers x).1 = handlers.state x.1 (runLoop ch).1 ∧
      (serveLoop handlers x).2.input = (runLoop ch).2.input := by
  have hin {ch ch' : Channel} (h : ch.input = ch'.input) : ch.incoming = ch'.incoming :=
    show ch.input.incoming = ch'.input.incoming from congrArg Channel.incoming h
  induction x using serveLoop.induct handlers generalizing ch with
  | case1 x hn      =>
    rw [serveLoop, if_pos hn, runLoop, if_pos (hin h ▸ hn)]
    exact ⟨rfl, h⟩
  | case2 x hn hp   =>
    obtain ⟨he, hc⟩ := readFrame_congr h
    rw [serveLoop, if_neg hn, dif_pos hp, runLoop_of_nil (hin h ▸ hn) (Prod.ext (he.symm.trans hp) rfl)]
    exact ⟨rfl, (input_sendAll ..).trans hc⟩
  | case3 x hn hp hi =>
    obtain ⟨he, hc⟩ := readFrame_congr h
    have hr : readFrame ch = ((readFrame x.2).1, (readFrame ch).2) := Prod.ext he.symm rfl
    rw [serveLoop, if_neg hn, dif_neg hp, runLoop_of_ne_nil (hin h ▸ hn) hr hp]
    exact hi ((input_sendAll ..).trans hc)

-- The application is called as in a run in which it sends nothing.
theorem serve_calls (handlers : Handlers τ) (t : τ) (ch : Channel) :
    (serve handlers (t, ch)).1 = handlers.state t (run ch).1 ∧ (serve handlers (t, ch)).2.input = (run ch).2.input := by
  unfold serve run
  split_ifs
  · exact serveLoop_calls (input_sendAll ..)
  · exact ⟨rfl, rfl⟩

end Input

section Sent

variable {frames : List Frame} {messages : List Message} {rest sent : Bytes}

def Message.bytes (m : Message) : Bytes :=
  frameBytes m.data m.opcode

theorem Channel.Ready.sendAll (h : ch.Ready rest sent) (messages : List Message) :
    (sendAll ch messages).Ready rest (sent ++ messages.flatMap Message.bytes) := by
  induction messages generalizing ch sent with
  | nil                => exact (List.append_nil sent).symm ▸ h
  | cons m messages hi =>
    rw [List.flatMap_cons, ← List.append_assoc]
    exact hi (h.sendFrame ..)

theorem sendAll_of_closed (h : ch.isOpen = false) (messages : List Message) : sendAll ch messages = ch := by
  induction messages with
  | nil                => rfl
  | cons m messages hi =>
    have hs : sendFrame ch m.data m.opcode = ch := if_neg (by simp [h])
    exact (congrArg (WebSocket.sendAll · messages) hs).trans hi

theorem serveLoop_of_nil {x : τ × Channel} (h : x.2.incoming ≠ []) (hr : readFrame x.2 = ([], ch')) :
    serveLoop handlers x = handlers.call .onClose (x.1, ch') := by
  rw [serveLoop, if_neg h, dif_pos (by rw [hr]), hr]

theorem serveLoop_of_ne_nil {x : τ × Channel} (h : x.2.incoming ≠ []) (hr : readFrame x.2 = (payload, ch'))
    (hp : payload ≠ []) : serveLoop handlers x = serveLoop handlers (handlers.call (.onMessage payload) (x.1, ch')) := by
  rw [serveLoop, if_neg h, dif_neg (by rw [hr]; exact hp), hr]

theorem sent_serveLoop {x : τ × Channel} (h : x.2.Ready (frames.flatMap Frame.encode) sent) :
    (serveLoop handlers x).2.sent = sent ++ (converse handlers x.1 frames).flatMap Message.bytes := by
  induction frames generalizing x sent with
  | nil            =>
    have hnil : x.2.incoming = [] := h.incoming
    rw [serveLoop, if_pos hnil]
    exact h.sent.trans (List.append_nil _).symm
  | cons f frames hi =>
    rw [List.flatMap_cons] at h
    have hne := incoming_ne_nil h
    rw [converse]
    split_ifs with hlong hp h₈ h₉
    · obtain ⟨ch₁, hready, hr⟩ := Frame.readFrame_encode h
      have hr : readFrame x.2 = ([], ch₁.close) := hr.trans (if_pos hlong)
      rw [serveLoop_of_nil hne hr, Handlers.call, sendAll_of_closed rfl]
      exact hready.sent.trans (List.append_nil _).symm
    all_goals
      obtain ⟨ch₁, hready, hr⟩ := Frame.readFrame_answer h (not_lt.mp hlong)
      rw [Frame.answer] at hr
    · rw [if_pos hp] at hr
      rw [serveLoop_of_nil hne hr]
      exact (hready.sendAll _).sent
    · rw [if_neg hp, dispatch, if_pos h₈] at hr
      rw [serveLoop_of_nil hne hr, Handlers.call, sendAll_of_closed rfl, List.flatMap_singleton]
      exact (hready.sendFrame ..).sent
    · rw [if_neg hp, dispatch, if_neg h₈, if_pos h₉] at hr
      rw [serveLoop_of_ne_nil hne hr hp, List.flatMap_append, List.flatMap_append, List.flatMap_singleton,
        ← List.append_assoc, ← List.append_assoc]
      exact hi ((hready.sendFrame ..).sendAll _)
    · rw [if_neg hp, dispatch, if_neg h₈, if_neg h₉] at hr
      rw [serveLoop_of_ne_nil hne hr hp, List.nil_append, List.flatMap_append, ← List.append_assoc]
      exact hi (hready.sendAll _)

end Sent

section Peer

variable {m : Message} {messages : List Message} {frames : List Frame} {rest : Bytes}

-- The frames that can be sent: an opcode has four bits, and the length of a string 64.
structure Message.Sendable (m : Message) : Prop where
  opcode : m.opcode < 16
  length : m.data.length < 2 ^ 64

theorem readSize_sizeBytes (h : n < 2 ^ 64) : readSize (sizeBytes n ++ rest) = some (n, rest) := by
  rcases sizeBytes_cases h with ⟨hle, hs⟩ | ⟨hlt, hs⟩ | ⟨hlt, hs⟩
  · have hb : (UInt8.ofNat n).toNat = n := by
      rw [UInt8.toNat_ofNat']
      omega
    have hlt : UInt8.ofNat n < 126 := by
      rw [UInt8.lt_iff_toNat_lt, hb]
      exact Nat.lt_succ_of_le hle
    rw [hs, List.singleton_append, readSize, if_pos hlt, hb]
  · have hl : (BigEndian.encode 2 n).length = 2 := BigEndian.length_encode
    simp [hs, readSize, hl, List.take_left' hl, List.drop_left' hl, BigEndian.decode_encode hlt]
  · have hl : (BigEndian.encode 8 n).length = 8 := BigEndian.length_encode
    simp [hs, readSize, hl, List.take_left' hl, List.drop_left' hl, BigEndian.decode_encode hlt]

theorem opcode_eq (op : UInt8) (h : op < 16) : (0x80 ||| op) &&& 0xF0 = 0x80 ∧ (0x80 ||| op) &&& 0x0F = op := by
  revert op
  decide +kernel

theorem Message.read_bytes (h : m.Sendable) : Message.read (m.bytes ++ rest) = some (m, rest) := by
  have ⟨hfin, hop⟩ := opcode_eq m.opcode h.opcode
  have hb : m.bytes ++ rest = (0x80 ||| m.opcode) :: (sizeBytes m.data.length ++ (m.data ++ rest)) := by
    simp [Message.bytes, frameBytes]
  simp [hb, Message.read, readSize_sizeBytes h.length, hfin, hop]

theorem Message.readAll_sent (h : ∀ m ∈ messages, m.Sendable) :
    Message.readAll (messages.flatMap Message.bytes) = some messages := by
  induction messages with
  | nil                => rw [List.flatMap_nil, Message.readAll, if_pos rfl]
  | cons m messages hi =>
    have ⟨hm, hms⟩ := List.forall_mem_cons.mp h
    have hr : Message.read (m.bytes ++ messages.flatMap Message.bytes) = some (m, messages.flatMap Message.bytes) :=
      Message.read_bytes hm
    have hn : m.bytes ++ messages.flatMap Message.bytes ≠ [] := List.append_ne_nil_of_left_ne_nil (List.cons_ne_nil _ _) _
    rw [List.flatMap_cons, Message.readAll, if_neg hn]
    split
    case h_1 hr' => exact absurd (hr.symm.trans hr') (by simp)
    case h_2 hr' =>
      cases hr.symm.trans hr'
      rw [hi hms]
      rfl

-- The application sends only such frames, if no payload that it is called with is too long.
def Handlers.Sends (handlers : Handlers τ) : Prop :=
  ∀ c t, (∀ payload, c = .onMessage payload → payload.length ≤ maxPayload) → ∀ m ∈ (handlers c t).2, m.Sendable

theorem sendable_converse (hs : handlers.Sends) (t : τ) :
    ∀ m ∈ converse handlers t frames, m.Sendable := by
  induction frames generalizing t with
  | nil            => nofun
  | cons f frames hi =>
    rw [converse]
    split_ifs with hlong hp h₈ h₉
    · nofun
    · exact hs _ _ nofun
    · exact List.forall_mem_singleton.mpr ⟨by decide, by decide⟩
    all_goals
      have hmessage : ∀ m ∈ (handlers (.onMessage f.payload) t).2, m.Sendable :=
        hs _ _ fun payload he => Call.onMessage.inj he ▸ not_lt.mp hlong
    · have hpong : Message.Sendable { data := f.payload, opcode := 0xA } := ⟨show (0xA : UInt8) < 16 by decide, f.length_payload⟩
      exact List.forall_mem_append.mpr ⟨List.forall_mem_append.mpr ⟨List.forall_mem_singleton.mpr hpong, hmessage⟩, hi _⟩
    · exact List.forall_mem_append.mpr ⟨List.forall_mem_append.mpr ⟨nofun, hmessage⟩, hi _⟩

-- A peer reads one frame for each frame that the application has sent and for each ping, in their order, up to
-- the close frame, and the application goes through the states of the calls.
theorem serve_converse {t : τ} (hs : handlers.Sends)
    (h : ch.Ready (frames.flatMap Frame.encode) []) :
    Message.readAll (serve handlers (t, ch)).2.sent =
        some ((handlers .onOpen t).2 ++ converse handlers (handlers .onOpen t).1 frames) ∧
      (serve handlers (t, ch)).1 = handlers.state t (run ch).1 := by
  refine ⟨?_, (serve_calls handlers t ch).1⟩
  have hsent : (serve handlers (t, ch)).2.sent =
      ((handlers .onOpen t).2 ++ converse handlers (handlers .onOpen t).1 frames).flatMap Message.bytes := by
    rw [serve, if_pos h.isOpen, List.flatMap_append]
    exact sent_serveLoop (h.sendAll _)
  rw [hsent]
  exact Message.readAll_sent (List.forall_mem_append.mpr ⟨hs _ _ nofun, sendable_converse hs _⟩)

-- An application that greets and sends back what it has got.
def echo : Handlers Nat
  | .onOpen, n            => (n, [{ data := "hi", opcode := 1 }])
  | .onMessage payload, n => (n + 1, [{ data := payload, opcode := 1 }])
  | .onClose, n           => (n, [])

theorem echo_sends : echo.Sends := by
  intro c n hc
  cases c with
  | onOpen            => exact List.forall_mem_singleton.mpr ⟨by decide, by decide⟩
  | onMessage payload =>
    have hle : payload.length ≤ maxPayload := hc payload rfl
    exact List.forall_mem_singleton.mpr ⟨show (1 : UInt8) < 16 by decide, hle.trans_lt (by decide)⟩
  | onClose           => nofun

-- A text, a ping and a close frame.
theorem serve_converse_three : ∃ frames : List Frame, frames.map Frame.opcode = [1, 9, 8] ∧
    Message.readAll (serve echo (0, { incoming := frames.flatMap Frame.encode })).2.sent =
      some [⟨"hi", 1⟩, ⟨"a", 1⟩, ⟨"b", 0xA⟩, ⟨"b", 1⟩, ⟨[], 0x8⟩] := by
  let text : Frame := ⟨true, 1, some [5, 6, 7, 8], "a", by decide, by simp, by decide⟩
  let ping : Frame := ⟨true, 9, some [5, 6, 7, 8], "b", by decide, by simp, by decide⟩
  let close : Frame := ⟨true, 8, some [5, 6, 7, 8], [3, 232], by decide, by simp, by decide⟩
  have h : Channel.Ready { incoming := [text, ping, close].flatMap Frame.encode } _ [] := ⟨rfl, rfl, rfl, nofun⟩
  exact ⟨[text, ping, close], rfl, (serve_converse echo_sends h).1.trans (by rfl)⟩

end Peer

end YNet.WebSocket

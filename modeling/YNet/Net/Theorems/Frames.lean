import YNet.Net.Frames

namespace YNet.WebSocket

variable {ch ch' : Channel} {bytes rest sent : Bytes} {n : Nat}

-- An open channel each of whose reads delivers all bytes it asks for as long as there are as many.
structure Channel.Ready (ch : Channel) (incoming sent : Bytes) : Prop where
  incoming : ch.incoming = incoming
  sent     : ch.sent = sent
  isOpen   : ch.isOpen = true
  full     : ∀ d ∈ ch.deliveries, ∀ n, n ≤ d.count n

theorem Channel.length_buffer (ch : Channel) (n : Nat) : (ch.buffer n).length = n := by
  unfold buffer
  split <;> simp

theorem Channel.Ready.amount (h : ch.Ready rest sent) (hn : 0 < n) : ch.amount n = n := by
  unfold Channel.amount
  split
  case h_1 => rfl
  case h_2 d _ hd =>
    have := h.full d (by simp [hd]) n
    omega

theorem Channel.Ready.read (h : ch.Ready (bytes ++ rest) sent) (hb : bytes ≠ []) {buf : Bytes}
    (hl : buf.length = bytes.length) :
    ∃ ch', ch.read buf = (some bytes, ch') ∧ ch'.Ready rest sent := by
  have hpos : 0 < bytes.length := List.length_pos_of_ne_nil hb
  have hc : ¬(ch.isOpen = false ∨ buf = [] ∨ ch.incoming = []) := by
    have hbuf : buf ≠ [] := List.ne_nil_of_length_pos (hl ▸ hpos)
    simp [h.isOpen, h.incoming, hb, hbuf]
  refine ⟨{ ch with incoming := rest, deliveries := ch.deliveries.tail }, ?_,
    ⟨rfl, h.sent, h.isOpen, fun d hd => h.full d (List.mem_of_mem_tail hd)⟩⟩
  have htake : ch.incoming.take (ch.amount buf.length) = bytes := by
    rw [h.amount (hl ▸ hpos), h.incoming, hl, List.take_left]
  rw [Channel.read, if_neg hc]
  simp only [htake]
  rw [h.incoming, List.drop_left, List.drop_eq_nil_of_le hl.le, List.append_nil]

theorem read_nil_of_closed (h : ch.isOpen = false) (buf : Bytes) : ch.read buf = (none, ch) :=
  if_pos (.inl h)

theorem Channel.Ready.read_nil (h : ch.Ready [] sent) (buf : Bytes) : ch.read buf = (none, ch) :=
  if_pos (.inr (.inr h.incoming))

theorem read_empty (ch : Channel) : ch.read [] = (none, ch) :=
  if_pos (.inr (.inl rfl))

section Length

-- The length field, with its first byte and the bytes that extend it.
theorem sizeBytes_cases (h : n < 2 ^ 64) :
    (n ≤ 125 ∧ sizeBytes n = [UInt8.ofNat n]) ∨
    (n < 256 ^ 2 ∧ sizeBytes n = 126 :: BigEndian.encode 2 n) ∨
    (n < 256 ^ 8 ∧ sizeBytes n = 127 :: BigEndian.encode 8 n) := by
  unfold sizeBytes
  split
  case isTrue hn => exact .inl ⟨hn, rfl⟩
  case isFalse =>
    split
    case isTrue hn => exact .inr (.inl ⟨by omega, rfl⟩)
    case isFalse   => exact .inr (.inr ⟨by omega, rfl⟩)

theorem encode_ne_nil (w n : Nat) : BigEndian.encode (w + 1) n ≠ [] :=
  List.cons_ne_nil _ _

theorem readLength_sizeBytes (hn : n < 2 ^ 64) : ∃ b ext, sizeBytes n = b :: ext ∧ b ≤ 127 ∧
    ∀ ch rest sent, ch.Ready (ext ++ rest) sent → ∃ ch', readLength ch b.toNat = (some n, ch') ∧ ch'.Ready rest sent := by
  rcases sizeBytes_cases hn with ⟨hle, hs⟩ | ⟨hlt, hs⟩ | ⟨hlt, hs⟩
  · have hb : (UInt8.ofNat n).toNat = n := by
      rw [UInt8.toNat_ofNat']
      omega
    refine ⟨_, [], hs, ?_, fun ch rest sent h => ⟨ch, ?_, h⟩⟩
    · rw [UInt8.le_iff_toNat_le, hb]
      simp only [UInt8.reduceToNat]
      omega
    · rw [hb, readLength, if_neg (by omega), if_neg (by omega)]
  · refine ⟨_, _, hs, by decide, fun ch rest sent h => ?_⟩
    have hl : (ch.buffer 2).length = (BigEndian.encode 2 n).length := (ch.length_buffer 2).trans BigEndian.length_encode.symm
    have ⟨ch', hr, hready⟩ := h.read (encode_ne_nil _ _) hl
    refine ⟨ch', ?_, hready⟩
    rw [readLength, if_pos (by rfl), hr]
    simp only [BigEndian.decode_encode hlt]
  · refine ⟨_, _, hs, by decide, fun ch rest sent h => ?_⟩
    have hl : (ch.buffer 8).length = (BigEndian.encode 8 n).length := (ch.length_buffer 8).trans BigEndian.length_encode.symm
    have ⟨ch', hr, hready⟩ := h.read (encode_ne_nil _ _) hl
    refine ⟨ch', ?_, hready⟩
    rw [readLength, if_neg (by decide), if_pos (by rfl), hr]
    simp only [BigEndian.decode_encode hlt]

end Length

theorem readMask_masked {key : Bytes} (h : ch.Ready (key ++ rest) sent) (hk : key.length = 4) :
    ∃ ch', readMask ch true = (some key, ch') ∧ ch'.Ready rest sent :=
  h.read (List.ne_nil_of_length_pos (by omega)) (by simp [hk])

theorem length_applyMask (key payload : Bytes) : (applyMask key payload).length = payload.length :=
  List.length_mapIdx

theorem applyMask_applyMask (key payload : Bytes) : applyMask key (applyMask key payload) = payload := by
  refine List.ext_getElem (by simp [length_applyMask]) fun i _ _ => ?_
  simp [applyMask]

namespace Frame

variable {f : Frame}

-- The bytes of a frame behind the length.
def body (f : Frame) : Bytes :=
  match f.key with
  | none     => f.payload
  | some key => key ++ applyMask key f.payload

theorem head_eq (b : Bool) (op : UInt8) (h : op < 16) : ((if b then 0x80 else 0) ||| op) &&& 0x0F = op := by
  revert b op
  decide +kernel

theorem size_masked (b : UInt8) (h : b ≤ 127) : (0x80 ||| b) &&& 0x7F = b ∧ (0x80 ||| b) &&& 0x80 ≠ 0 := by
  revert b
  decide +kernel

theorem size_unmasked (b : UInt8) (h : b ≤ 127) : b &&& 0x7F = b ∧ b &&& 0x80 = 0 := by
  revert b
  decide +kernel

-- What comes behind the length of a frame that is not too long.
def answer (f : Frame) (ch : Channel) : Bytes × Channel :=
  if f.payload = [] then ([], ch) else dispatch ch f.opcode f.payload

-- The read of the payload fails if there is none.
theorem read_payload (h : ch.Ready (bytes ++ rest) sent) (hl : bytes.length = f.payload.length) :
    ∃ ch', ch'.Ready rest sent ∧ ch.read (List.replicate f.payload.length 0) =
      (if f.payload = [] then none else some bytes, ch') := by
  by_cases hp : f.payload = []
  case pos =>
    have hb : bytes = [] := List.length_eq_zero_iff.mp (by simp [hl, hp])
    subst hb
    exact ⟨ch, h, by simp [hp, read_empty]⟩
  case neg =>
    have hb : bytes ≠ [] := List.ne_nil_of_length_pos (hl ▸ List.length_pos_of_ne_nil hp)
    have hlen : (List.replicate f.payload.length (0 : UInt8)).length = bytes.length := by simp [hl]
    have ⟨ch', hr, hready⟩ := h.read hb hlen
    exact ⟨ch', hready, by rw [hr, if_neg hp]⟩

theorem readPayload_body (h : ch.Ready (f.body ++ rest) sent) (hle : f.payload.length ≤ maxPayload) :
    ∃ ch', ch'.Ready rest sent ∧ readPayload ch f.opcode f.key.isSome f.payload.length = f.answer ch' := by
  unfold readPayload body at *
  rw [if_neg (not_lt.mpr hle)]
  cases hk : f.key with
  | none =>
    have hready : ch.Ready (f.payload ++ rest) sent := by simpa [hk] using h
    have ⟨ch', hready, hr⟩ := read_payload (f := f) hready rfl
    refine ⟨ch', hready, ?_⟩
    simp only [Option.isSome_none, readMask, Bool.false_eq_true, if_false, hr, answer]
    by_cases hp : f.payload = [] <;> simp [hp]
  | some key =>
    have hready : ch.Ready (key ++ (applyMask key f.payload ++ rest)) sent := by simpa [hk] using h
    have ⟨ch₁, hm, hready⟩ := readMask_masked hready (f.length_key key hk)
    have ⟨ch', hready, hr⟩ := read_payload hready (length_applyMask ..)
    refine ⟨ch', hready, ?_⟩
    simp only [Option.isSome_some, hm, hr, answer]
    by_cases hp : f.payload = [] <;> simp [hp, applyMask_applyMask]

-- The first two bytes of a frame tell what follows.
theorem encode_eq (f : Frame) : ∃ size ext, f.encode = [(if f.fin then 0x80 else 0) ||| f.opcode, size] ++ (ext ++ f.body) ∧
    decide (size &&& 0x80 ≠ 0) = f.key.isSome ∧ ∀ ch rest sent, ch.Ready (ext ++ rest) sent →
      ∃ ch', readLength ch (size &&& 0x7F).toNat = (some f.payload.length, ch') ∧ ch'.Ready rest sent := by
  have ⟨b, ext, hs, hb, hlen⟩ := readLength_sizeBytes f.length_payload
  cases hk : f.key with
  | none     =>
    have ⟨hlow, hhigh⟩ := size_unmasked b hb
    exact ⟨b, ext, by simp [encode, body, hk, hs], by simp [hhigh], hlow.symm ▸ hlen⟩
  | some key =>
    have ⟨hlow, hhigh⟩ := size_masked b hb
    exact ⟨0x80 ||| b, ext, by simp [encode, body, hk, hs], by simpa using hhigh, hlow.symm ▸ hlen⟩

theorem readFrame_encode (h : ch.Ready (f.encode ++ rest) sent) :
    ∃ ch', ch'.Ready (f.body ++ rest) sent ∧ readFrame ch = readPayload ch' f.opcode f.key.isSome f.payload.length := by
  have ⟨size, ext, hsize, hmask, hlen⟩ := f.encode_eq
  have hbuf : (ch.buffer 2).length = [(if f.fin then 0x80 else 0) ||| f.opcode, size].length := ch.length_buffer 2
  rw [hsize, List.append_assoc] at h
  have ⟨ch₁, hr, hready⟩ := h.read (List.cons_ne_nil _ _) hbuf
  have ⟨ch₂, hl, hready⟩ := hlen ch₁ (f.body ++ rest) sent (by simpa using hready)
  refine ⟨ch₂, hready, ?_⟩
  rw [readFrame, hr]
  simp only [List.getD_cons_zero, List.getD_cons_succ, hl, hmask, head_eq _ _ f.opcode_lt]

-- The data frames whose payload `readFrame` can tell from the end of the connection.
structure IsMessage (f : Frame) : Prop where
  isData : f.isData
  ne_nil : f.payload ≠ []
  le     : f.payload.length ≤ maxPayload

theorem answer_of_opcode (h₈ : f.opcode ≠ 8) (h₉ : f.opcode ≠ 9) : f.answer ch = (f.payload, ch) := by
  by_cases hp : f.payload = []
  case pos => rw [answer, if_pos hp, hp]
  case neg => rw [answer, if_neg hp, dispatch, if_neg h₈, if_neg h₉]

theorem IsMessage.answer (h : f.IsMessage) : f.answer ch = (f.payload, ch) := by
  have hd : f.opcode = 1 ∨ f.opcode = 2 := by simpa [Frame.isData] using h.isData
  refine answer_of_opcode ?_ ?_ <;> rcases hd with hd | hd <;> simp [hd]

-- Without a mask a peer encodes a frame in the way of `sendFrame`.
theorem encode_unmasked (hf : f.fin) (hk : f.key = none) : f.encode = frameBytes f.payload f.opcode := by
  simp [encode, frameBytes, hf, hk]

-- A frame that is not too long is read to its end.
theorem readFrame_answer (h : ch.Ready (f.encode ++ rest) sent) (hle : f.payload.length ≤ maxPayload) :
    ∃ ch', ch'.Ready rest sent ∧ readFrame ch = f.answer ch' := by
  have ⟨ch₁, hready, hr⟩ := readFrame_encode h
  have ⟨ch₂, hready, hp⟩ := readPayload_body hready hle
  exact ⟨ch₂, hready, hr.trans hp⟩

theorem readFrame_message (h : ch.Ready (f.encode ++ rest) sent) (hf : f.IsMessage) :
    ∃ ch', readFrame ch = (f.payload, ch') ∧ ch'.Ready rest sent := by
  have ⟨ch', hready, hr⟩ := readFrame_answer h hf.le
  exact ⟨ch', hr.trans hf.answer, hready⟩

end Frame

section Outcomes

variable {f : Frame}

theorem Channel.Ready.sendFrame (h : ch.Ready rest sent) (data : Bytes) (opcode : UInt8) :
    (sendFrame ch data opcode).Ready rest (sent ++ frameBytes data opcode) := by
  unfold WebSocket.sendFrame Channel.write
  rw [if_pos h.isOpen]
  exact ⟨h.incoming, congrArg (· ++ _) h.sent, h.isOpen, h.full⟩

-- A frame that is too long is not read beyond its length.
theorem readFrame_long (h : ch.Ready (f.encode ++ rest) sent) (hf : maxPayload < f.payload.length) :
    ∃ ch', readFrame ch = ([], ch') ∧ ch'.isOpen = false ∧ ch'.incoming = f.body ++ rest := by
  have ⟨ch₁, hready, hr⟩ := Frame.readFrame_encode h
  exact ⟨ch₁.close, hr.trans (if_pos hf), rfl, hready.incoming⟩

theorem readFrame_close (h : ch.Ready (f.encode ++ rest) sent) (hf : f.opcode = 8) (hle : f.payload.length ≤ maxPayload) :
    ∃ ch', readFrame ch = ([], ch') ∧ ch'.incoming = rest ∧ (f.payload ≠ [] → ch'.isOpen = false) := by
  have ⟨ch₂, hready, hr⟩ := Frame.readFrame_answer h hle
  rw [Frame.answer] at hr
  by_cases hn : f.payload = []
  case pos => exact ⟨ch₂, by rw [hr, if_pos hn], hready.incoming, fun h => absurd hn h⟩
  case neg =>
    rw [if_neg hn, dispatch, if_pos hf] at hr
    exact ⟨_, hr, (hready.sendFrame ..).incoming, fun _ => rfl⟩

theorem readFrame_payload (h : ch.Ready (f.encode ++ rest) sent) (hle : f.payload.length ≤ maxPayload)
    (hf : f.opcode = 8 → f.payload = []) : ∃ ch' sent', readFrame ch = (f.payload, ch') ∧ ch'.Ready rest sent' := by
  have ⟨ch₂, hready, hr⟩ := Frame.readFrame_answer h hle
  rw [Frame.answer] at hr
  by_cases hn : f.payload = []
  case pos => exact ⟨ch₂, sent, by rw [hr, if_pos hn, hn], hready⟩
  case neg =>
    rw [if_neg hn, dispatch, if_neg (fun h₈ => hn (hf h₈))] at hr
    by_cases h₉ : f.opcode = 9
    case pos => exact ⟨_, _, by rw [hr, if_pos h₉], hready.sendFrame ..⟩
    case neg => exact ⟨ch₂, sent, by rw [hr, if_neg h₉], hready⟩

end Outcomes

-- Successive calls of `readFrame` return the payloads of the frames, each of them with the bytes of its
-- own frame only, and send nothing.
theorem readFrames_messages {frames : List Frame} (hf : ∀ f ∈ frames, f.fin ∧ f.IsMessage)
    (h : ch.Ready (frames.flatMap Frame.encode ++ rest) sent) :
    (∀ f ∈ frames, f.key = none → f.encode = frameBytes f.payload f.opcode) ∧
    ∀ k ≤ frames.length, ∃ ch', readFrames k ch = ((frames.take k).map (·.payload), ch') ∧
      ch'.Ready ((frames.drop k).flatMap Frame.encode ++ rest) sent := by
  refine ⟨fun f hm => Frame.encode_unmasked (hf f hm).1, fun k hk => ?_⟩
  induction k generalizing ch frames with
  | zero => exact ⟨ch, rfl, h⟩
  | succ k hi =>
    cases frames with
    | nil            => simp at hk
    | cons f frames  =>
      rw [List.flatMap_cons, List.append_assoc] at h
      have ⟨ch₁, hr, hready⟩ := Frame.readFrame_message h (hf f (List.mem_cons_self ..)).2
      have ⟨ch₂, hrs, hready⟩ := hi (fun f hm => hf f (List.mem_cons_of_mem _ hm)) hready (by simpa using hk)
      exact ⟨ch₂, by simp [readFrames, hr, hrs], hready⟩

-- A masked text frame and a binary frame without a mask.
theorem readFrames_messages_two : ∃ frames : List Frame, frames.map (·.payload) = [[1, 2], [3]] ∧
    ∃ ch', readFrames 2 { incoming := frames.flatMap Frame.encode ++ [9] } = ([[1, 2], [3]], ch') ∧ ch'.Ready [9] [] := by
  let text : Frame := ⟨true, 1, some [5, 6, 7, 8], [1, 2], by decide, by simp, by decide⟩
  let binary : Frame := ⟨true, 2, none, [3], by decide, by simp, by decide⟩
  have hf : ∀ f ∈ [text, binary], f.fin ∧ f.IsMessage := by
    simp only [List.forall_mem_cons]
    exact ⟨⟨rfl, rfl, by simp [text], by decide⟩, ⟨rfl, rfl, by simp [binary], by decide⟩, nofun⟩
  exact ⟨[text, binary], rfl, (readFrames_messages hf ⟨rfl, rfl, rfl, by simp⟩).2 2 le_rfl⟩

end YNet.WebSocket

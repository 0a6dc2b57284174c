import YNet.Net.Theorems.Frames

namespace YNet.WebSocket

variable {ch ch' : Channel} {f : Frame} {bytes rest sent : Bytes} {n : Nat}

-- The frames after which `readFrame` closes the connection.
def Frame.closes (f : Frame) : Bool :=
  maxPayload < f.payload.length || (f.opcode = 8 && f.payload ≠ [])

-- What successive calls return when no read is cut.
def returned : Nat → List Frame → List Bytes
  | 0, _               => []
  | n + 1, []          => [] :: returned n []
  | n + 1, f :: frames => if f.closes then List.replicate (n + 1) [] else f.payload :: returned n frames

theorem readFrames_closed (h : ch.isOpen = false) : readFrames n ch = (List.replicate n [], ch) := by
  have hr : readFrame ch = ([], ch) := by rw [readFrame, read_nil_of_closed h]
  induction n with
  | zero      => rfl
  | succ n hi => rw [readFrames, hr, hi]; rfl

theorem readFrame_closes (h : ch.Ready (f.encode ++ rest) sent) (hf : f.closes) :
    ∃ ch', readFrame ch = ([], ch') ∧ ch'.isOpen = false := by
  by_cases hl : maxPayload < f.payload.length
  case pos =>
    have ⟨ch', hr, hclosed, _⟩ := readFrame_long h hl
    exact ⟨ch', hr, hclosed⟩
  case neg =>
    have hc : f.opcode = 8 ∧ f.payload ≠ [] := by simpa [Frame.closes, hl] using hf
    have ⟨ch', hr, _, hclosed⟩ := readFrame_close h hc.1 (not_lt.mp hl)
    exact ⟨ch', hr, hclosed hc.2⟩

theorem readFrames_returned {frames : List Frame} (h : ch.Ready (frames.flatMap Frame.encode) sent) :
    (readFrames n ch).1 = returned n frames := by
  induction n generalizing ch sent frames with
  | zero => rfl
  | succ n hi =>
    cases frames with
    | nil =>
      have hr : readFrame ch = ([], ch) := by rw [readFrame, h.read_nil]
      simp only [readFrames, hr, returned, hi h]
    | cons f frames =>
      rw [List.flatMap_cons] at h
      rw [returned]
      split
      case isTrue hc =>
        obtain ⟨ch', hr, hclosed⟩ := readFrame_closes h hc
        rw [readFrames, hr, readFrames_closed hclosed]
        rfl
      case isFalse hc =>
        have hc : f.payload.length ≤ maxPayload ∧ (f.opcode = 8 → f.payload = []) := by
          simpa [Frame.closes] using hc
        obtain ⟨ch', sent', hr, hready⟩ := readFrame_payload h hc.1 hc.2
        rw [readFrames, hr, hi hready]

-- A delivery that cuts off the second byte of a header.
def cut : Delivery where
  count _ := 1
  stale _ := 0

theorem readFrame_cut (ch : Channel) (h : ch.incoming = b :: c :: rest) (ho : ch.isOpen) (hd : ch.deliveries = [cut]) :
    (readFrame ch).1 = [] := by
  have hr : ch.read (ch.buffer 2) = (some [b, 0], { ch with incoming := c :: rest, deliveries := [] }) := by
    simp [Channel.read, Channel.buffer, Channel.amount, cut, h, ho, hd, List.range_succ]
  rw [readFrame, hr]
  simp [readLength, readPayload, readMask, read_empty]

-- The payloads do not depend on the reads as long as none of them is cut. On any frames that begin with
-- a message there are reads on which they do.
theorem segmentation (frames : List Frame) :
    (∀ ch₁ ch₂ sent₁ sent₂, ch₁.Ready (frames.flatMap Frame.encode) sent₁ →
      ch₂.Ready (frames.flatMap Frame.encode) sent₂ → ∀ n, (readFrames n ch₁).1 = (readFrames n ch₂).1) ∧
    ∀ f ∈ frames.head?, f.IsMessage → ∃ deliveries,
      (readFrames 1 { incoming := frames.flatMap Frame.encode, deliveries }).1 ≠
      (readFrames 1 { incoming := frames.flatMap Frame.encode }).1 := by
  refine ⟨fun ch₁ ch₂ sent₁ sent₂ h₁ h₂ n => ?_, fun f hf hm => ⟨[cut], ?_⟩⟩
  · rw [readFrames_returned h₁, readFrames_returned h₂]
  · cases frames with
    | nil           => simp at hf
    | cons g frames =>
      cases hf
      have hready : Channel.Ready { incoming := (f :: frames).flatMap Frame.encode }
          (f.encode ++ frames.flatMap Frame.encode) [] := ⟨rfl, rfl, rfl, by simp⟩
      have ⟨_, hr, _⟩ := Frame.readFrame_message hready hm
      have ⟨size, ext, hsize, _⟩ := f.encode_eq
      have hcut := readFrame_cut { incoming := (f :: frames).flatMap Frame.encode, deliveries := [cut] }
        (List.flatMap_cons.trans (congrArg (· ++ _) hsize)) rfl rfl
      simp only [readFrames, hr, hcut]
      simpa using Ne.symm hm.ne_nil

-- A text frame of two bytes, of which the read of the payload delivers one.
theorem not_segmentation : ¬∀ (frames : List Frame) (ch₁ ch₂ : Channel), ch₁.isOpen → ch₂.isOpen →
    ch₁.incoming = frames.flatMap Frame.encode → ch₂.incoming = frames.flatMap Frame.encode →
    ∀ n, (readFrames n ch₁).1 = (readFrames n ch₂).1 := by
  intro h
  let text : Frame := ⟨true, 1, some [5, 6, 7, 8], [1, 2], by decide, by simp, by decide⟩
  let one : Delivery := ⟨fun n => if n = 2 then 1 else n, fun _ => 0⟩
  have := h [text] { incoming := [text].flatMap Frame.encode }
    { incoming := [text].flatMap Frame.encode, deliveries := [⟨id, fun _ => 0⟩, ⟨id, fun _ => 0⟩, one] } rfl rfl rfl rfl 1
  revert this
  decide +kernel

end YNet.WebSocket

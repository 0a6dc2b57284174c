import YNet.Net.Theorems.Frames

namespace YNet.WebSocket

variable {ch ch' : Channel} {f close : Frame} {frames : List Frame} {rest sent : Bytes}

def Frame.call (f : Frame) : Call :=
  .onMessage f.payload

theorem incoming_ne_nil (h : ch.Ready (f.encode ++ rest) sent) : ch.incoming ≠ [] := by
  rw [h.incoming]
  exact List.append_ne_nil_of_left_ne_nil (List.cons_ne_nil _ _) _

theorem runLoop_of_nil (h : ch.incoming ≠ []) (hr : readFrame ch = ([], ch')) : runLoop ch = ([.onClose], ch') := by
  rw [runLoop, if_neg h, dif_pos (by rw [hr]), hr]

theorem runLoop_of_ne_nil (h : ch.incoming ≠ []) (hr : readFrame ch = (payload, ch')) (hp : payload ≠ []) :
    runLoop ch = (.onMessage payload :: (runLoop ch').1, (runLoop ch').2) := by
  rw [runLoop, if_neg h, dif_neg (by rw [hr]; exact hp), hr]

-- The loop runs up to the close frame if all frames before it are messages.
theorem runLoop_messages (hf : ∀ f ∈ frames, f.IsMessage) (hc : close.opcode = 8) (hl : close.payload.length ≤ maxPayload)
    (h : ch.Ready (frames.flatMap Frame.encode ++ close.encode) sent) :
    (runLoop ch).1 = frames.map Frame.call ++ [.onClose] ∧ (runLoop ch).2.incoming = [] := by
  induction frames generalizing ch with
  | nil =>
    have h : ch.Ready (close.encode ++ []) sent := by simpa using h
    have ⟨ch', hr, hi, _⟩ := readFrame_close h hc hl
    rw [runLoop_of_nil (incoming_ne_nil h) hr]
    exact ⟨rfl, hi⟩
  | cons f frames hi =>
    rw [List.flatMap_cons, List.append_assoc] at h
    have hm := hf f (List.mem_cons_self ..)
    have ⟨ch', hr, hready⟩ := Frame.readFrame_message h hm
    have ⟨hcalls, hrest⟩ := hi (fun f hf' => hf f (List.mem_cons_of_mem _ hf')) hready
    rw [runLoop_of_ne_nil (incoming_ne_nil h) hr hm.ne_nil]
    exact ⟨by simp [hcalls, Frame.call], hrest⟩

-- If the loop reads all frames, none of them is empty or too long, and there is a call for each of them.
theorem runLoop_complete (hf : ∀ f ∈ frames, f.opcode ≠ 8) (hc : close.opcode = 8) (hl : close.payload.length ≤ maxPayload)
    (h : ch.Ready (frames.flatMap Frame.encode ++ close.encode) sent) (hn : (runLoop ch).2.incoming = []) :
    (runLoop ch).1 = frames.map Frame.call ++ [.onClose] ∧ ∀ f ∈ frames, f.payload ≠ [] ∧ f.payload.length ≤ maxPayload := by
  induction frames generalizing ch sent with
  | nil =>
    have h : ch.Ready (close.encode ++ []) sent := by simpa using h
    have ⟨ch', hr, _⟩ := readFrame_close h hc hl
    rw [runLoop_of_nil (incoming_ne_nil h) hr]
    exact ⟨rfl, nofun⟩
  | cons f frames hi =>
    rw [List.flatMap_cons, List.append_assoc] at h
    have hrest : frames.flatMap Frame.encode ++ close.encode ≠ [] :=
      List.append_ne_nil_of_right_ne_nil _ (List.cons_ne_nil _ _)
    have hle : f.payload.length ≤ maxPayload := not_lt.mp fun hlong => by
      have ⟨ch', hr, _, hin⟩ := readFrame_long h hlong
      rw [runLoop_of_nil (incoming_ne_nil h) hr] at hn
      exact absurd (hin.symm.trans hn) (List.append_ne_nil_of_right_ne_nil _ hrest)
    have ⟨ch', sent', hr, hready⟩ := readFrame_payload h hle fun h₈ => absurd h₈ (hf f (List.mem_cons_self ..))
    have hne : f.payload ≠ [] := fun hp => by
      rw [runLoop_of_nil (incoming_ne_nil h) (hp ▸ hr)] at hn
      exact hrest (hready.incoming.symm.trans hn)
    rw [runLoop_of_ne_nil (incoming_ne_nil h) hr hne] at hn ⊢
    have ⟨hcalls, hall⟩ := hi (fun f hm => hf f (List.mem_cons_of_mem _ hm)) hready hn
    exact ⟨by simp [hcalls, Frame.call], List.forall_mem_cons.mpr ⟨⟨hne, hle⟩, hall⟩⟩

-- The handlers are called once for each data frame and then for the close frame, if and only if all
-- frames before it are messages.
theorem run_calls (hf : ∀ f ∈ frames, f.opcode ≠ 8) (hc : close.opcode = 8) (hl : close.payload.length ≤ 125)
    (h : ch.Ready ((frames ++ [close]).flatMap Frame.encode) sent) :
    ((run ch).1 = .onOpen :: ((frames.filter Frame.isData).map Frame.call ++ [.onClose]) ∧ (run ch).2.incoming = []) ↔
      ∀ f ∈ frames, f.IsMessage := by
  have hl : close.payload.length ≤ maxPayload := hl.trans (by decide)
  have h : ch.Ready (frames.flatMap Frame.encode ++ close.encode) sent := by simpa using h
  rw [run, if_pos h.isOpen]
  constructor
  · rintro ⟨hcalls, hn⟩ f hm
    have ⟨hall, hp⟩ := runLoop_complete hf hc hl h hn
    have hmap := List.append_cancel_right (hall.symm.trans (List.cons.inj hcalls).2)
    have hlen : frames.length = (frames.filter Frame.isData).length := by simpa using congrArg List.length hmap
    have hdata := List.length_filter_eq_length_iff.mp hlen.symm
    exact ⟨hdata f hm, (hp f hm).1, (hp f hm).2⟩
  · intro hm
    have hfilter : frames.filter Frame.isData = frames := List.filter_eq_self.mpr fun f hf => (hm f hf).isData
    have ⟨hcalls, hn⟩ := runLoop_messages hm hc hl h
    exact ⟨by rw [hcalls, hfilter], hn⟩

-- A ping frame with a payload of one byte before the close frame.
theorem not_run_calls : ¬∀ (frames : List Frame) (close : Frame) (ch : Channel), (∀ f ∈ frames, f.opcode ≠ 8) →
    close.opcode = 8 → close.payload.length ≤ 125 → ch.Ready ((frames ++ [close]).flatMap Frame.encode) [] →
    (run ch).1 = .onOpen :: ((frames.filter Frame.isData).map Frame.call ++ [.onClose]) ∧ (run ch).2.incoming = [] := by
  intro h
  let ping : Frame := ⟨true, 9, some [5, 6, 7, 8], [1], by decide, by simp, by decide⟩
  let close : Frame := ⟨true, 8, some [5, 6, 7, 8], [], by decide, by simp, by decide⟩
  have := (h [ping] close { incoming := [ping, close].flatMap Frame.encode } (by simp [ping]) rfl (by decide)
    ⟨rfl, rfl, rfl, by simp⟩).1
  revert this
  decide +kernel

theorem run_calls_one : ∃ ch', (run ch').1 = [.onOpen, .onMessage [1], .onClose] ∧ (run ch').2.incoming = [] := by
  let text : Frame := ⟨true, 1, some [5, 6, 7, 8], [1], by decide, by simp, by decide⟩
  let close : Frame := ⟨true, 8, some [5, 6, 7, 8], [], by decide, by simp, by decide⟩
  let ch : Channel := { incoming := ([text] ++ [close]).flatMap Frame.encode }
  have hm : ∀ f ∈ [text], f.IsMessage := by simpa using ⟨rfl, by simp [text], by decide⟩
  have hready : ch.Ready (([text] ++ [close]).flatMap Frame.encode) [] := ⟨rfl, rfl, rfl, by simp [ch]⟩
  exact ⟨ch, (run_calls (by simp [text]) (by rfl) (by decide) hready).mpr hm⟩

end YNet.WebSocket

import YNet.Net.Writes

open Finset

namespace YNet

namespace Sink

variable {sink sink' : Sink} {data rest : Bytes}

section Write

theorem write_none (h : sink.outcomes sink.calls = none) :
    sink.write data = (none, { sink with calls := sink.calls + 1 }) := by
  rw [write, h]

theorem write_some (h : sink.outcomes sink.calls = some k) :
    sink.write data = (some (min (max k 1) data.length),
      { sink with calls := sink.calls + 1, accepted := sink.accepted ++ data.take (min (max k 1) data.length) }) := by
  rw [write, h]

-- A message without bytes needs no call that takes something.
theorem write_delivers_iff : sink.Delivers (sink.write data).2 data ↔ data = [] ∨ sink.TakesAtOnce data.length := by
  cases h : sink.outcomes sink.calls with
  | none   => simp [Delivers, write_none h, TakesAtOnce, h]
  | some k =>
    have ht : data.take (min (max k 1) data.length) = data ↔ data.length ≤ max k 1 := by
      rw [List.take_eq_self_iff]
      omega
    simp only [Delivers, write_some h, List.append_cancel_left_eq, ht, TakesAtOnce, h, Option.some.injEq,
      exists_eq_left']
    exact ⟨.inr, fun h => h.elim (fun h => h ▸ Nat.zero_le _) id⟩

end Write

section Takes

theorem takes_zero : sink.Takes 0 :=
  ⟨0, by simp, Nat.zero_le _⟩

theorem not_takes (h : sink.outcomes sink.calls = none) (hs : 0 < size) : ¬sink.Takes size := by
  rintro ⟨n, hn, hle⟩
  cases n with
  | zero   => exact absurd hle (by simp; omega)
  | succ n => simpa [h] using hn 0 n.succ_pos

theorem takes_iff (h : sink.outcomes sink.calls = some k) (hs : max k 1 < size)
    (ho : sink'.outcomes = sink.outcomes) (hc : sink'.calls = sink.calls + 1) :
    sink.Takes size ↔ sink'.Takes (size - max k 1) := by
  have hshift : ∀ i, sink.outcomes (sink.calls + (i + 1)) = sink'.outcomes (sink'.calls + i) := fun i => by
    rw [ho, hc, Nat.add_right_comm, Nat.add_assoc]
  constructor
  · rintro ⟨n, hn, hle⟩
    cases n with
    | zero   => exact absurd hle (by simp; omega)
    | succ n =>
      refine ⟨n, fun i hi => hshift i ▸ hn (i + 1) (Nat.succ_lt_succ hi), ?_⟩
      rw [sum_range_succ'] at hle
      simp only [hshift, Nat.add_zero, h, Option.getD_some] at hle
      omega
  · rintro ⟨n, hn, hle⟩
    refine ⟨n + 1, fun i hi => ?_, ?_⟩
    · cases i with
      | zero   => simp [h]
      | succ i => exact hshift i ▸ hn i (Nat.lt_of_succ_lt_succ hi)
    · rw [sum_range_succ']
      simp only [hshift, Nat.add_zero, h, Option.getD_some]
      omega

end Takes

theorem takes_of_atOnce (h : sink.TakesAtOnce size) : sink.Takes size := by
  have ⟨k, hk, hle⟩ := h
  refine ⟨1, fun i hi => ?_, ?_⟩
  · rw [Nat.lt_one_iff.mp hi, Nat.add_zero, hk]
    rfl
  · simpa [hk] using hle

section WriteLoop

theorem outcomes_of_write_none (h : sink.write rest = (none, sink')) :
    sink.outcomes sink.calls = none ∧ sink'.accepted = sink.accepted := by
  cases ho : sink.outcomes sink.calls with
  | none   =>
    cases (write_none ho).symm.trans h
    exact ⟨rfl, rfl⟩
  | some k => cases (write_some ho).symm.trans h

theorem outcomes_of_write_some (h : sink.write rest = (some n, sink')) :
    ∃ k, sink.outcomes sink.calls = some k ∧ n = min (max k 1) rest.length ∧
      sink'.outcomes = sink.outcomes ∧ sink'.calls = sink.calls + 1 ∧
      sink'.accepted = sink.accepted ++ rest.take n := by
  cases ho : sink.outcomes sink.calls with
  | none   => cases (write_none ho).symm.trans h
  | some k =>
    cases (write_some ho).symm.trans h
    exact ⟨k, rfl, rfl, rfl, rfl, rfl⟩

-- The loop stops at the first call without a result, and otherwise goes on to the end.
theorem writeLoop_delivers_iff : sink.Delivers (sink.writeLoop rest) rest ↔ sink.Takes rest.length := by
  fun_induction writeLoop sink rest
  case case1 sink rest sink' h =>
    have ⟨ho, ha⟩ := outcomes_of_write_none h
    rw [Delivers, ha, List.self_eq_append_right]
    constructor
    · rintro rfl
      exact takes_zero
    · intro ht
      by_contra hn
      exact not_takes ho (List.length_pos_iff.mpr hn) ht
  case case2 sink rest sink' h =>
    have ⟨k, ho, hn, _, _, ha⟩ := outcomes_of_write_some h
    refine iff_of_true ?_ (takes_of_atOnce ⟨k, ho, by omega⟩)
    rw [Delivers, ha, List.take_length]
  case case3 sink rest n sink' h hne hi =>
    have ⟨k, ho, hn, hout, hcalls, ha⟩ := outcomes_of_write_some h
    have hlt := (write_progress h hne).2
    have hk : n = max k 1 := by omega
    rw [takes_iff ho (by omega) hout hcalls, ← hk, ← List.length_drop, ← hi, Delivers, Delivers, ha,
      List.append_assoc, List.take_append_drop]

end WriteLoop

-- The three senders deliver the whole message exactly when the calls that they make take all of it.
theorem delivers_iff (sink : Sink) :
    (∀ order res, sink.Delivers (Response.send order res sink) (res.build order).1 ↔
      sink.Takes (res.build order).1.length) ∧
    (∀ data opcode, sink.Delivers (sink.sendFrame data opcode) (WebSocket.frameBytes data opcode) ↔
      sink.TakesAtOnce (WebSocket.frameBytes data opcode).length) ∧
    (∀ digest req, sink.Delivers (sink.sendHandshake digest req) (WebSocket.handshake digest req) ↔
      WebSocket.handshake digest req = [] ∨ sink.TakesAtOnce (WebSocket.handshake digest req).length) := by
  refine ⟨fun order res => writeLoop_delivers_iff, fun data opcode => ?_, fun digest req => write_delivers_iff⟩
  exact write_delivers_iff.trans (or_iff_right (List.cons_ne_nil _ _))

-- A socket that takes four bytes and is full then.
def shortWrite : Sink where
  outcomes i := if i = 0 then some 4 else none

-- The last byte of the payload is lost, because the result of the write is not looked at.
theorem sendFrame_cut : (shortWrite.sendFrame "abc" 1).accepted = [0x81, 3, 0x61, 0x62] ∧
    WebSocket.frameBytes "abc" 1 = [0x81, 3, 0x61, 0x62, 0x63] ∧
    ¬shortWrite.Delivers (shortWrite.sendFrame "abc" 1) (WebSocket.frameBytes "abc" 1) := by
  refine ⟨by decide, by decide, fun h => ?_⟩
  have hl : (shortWrite.sendFrame "abc" 1).accepted.length = 4 := by decide
  exact absurd (hl.symm.trans (congrArg List.length h)) (by decide)

end Sink
end YNet

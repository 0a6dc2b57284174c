import YNet.Cpp.Bytes

-- A `std::string_view`: a range of a buffer that somebody else owns.
structure View where
  pos    : Nat
  length : Nat
  deriving DecidableEq

-- What the memory of a buffer contains. An address that is not mapped contains nothing.
abbrev Memory := Nat → Option UInt8

namespace View

variable {view : View} {buffer s : Bytes}

-- What the view shows as long as the buffer lives.
def text (view : View) (buffer : Bytes) : Bytes :=
  (buffer.drop view.pos).take view.length

-- A copy of what the view shows, whether the buffer lives or not. The result is `none` if an address is
-- not mapped.
def read (view : View) (memory : Memory) : Option Bytes :=
  (List.range' view.pos view.length).mapM memory

theorem read_of_empty {memory : Memory} (h : view.length = 0) : view.read memory = some [] := by
  rw [read, h]
  rfl

theorem mapM_range' {n : Nat} {memory : Memory} (h : ∀ i < s.length, memory (n + i) = s[i]?) :
    (List.range' n s.length).mapM memory = some s := by
  induction s generalizing n with
  | nil         => rfl
  | cons c s hi =>
    have hc : memory n = some c := h 0 (Nat.succ_pos _)
    have hs : (List.range' (n + 1) s.length).mapM memory = some s :=
      hi fun i hi => (congrArg memory (Nat.add_right_comm n 1 i)).trans (h (i + 1) (Nat.succ_lt_succ hi))
    rw [List.length_cons, List.range'_succ, List.mapM_cons, hc, hs]
    rfl

-- The buffer still lives.
theorem read_buffer (h : view.pos + view.length ≤ buffer.length) : view.read (buffer[·]?) = some (view.text buffer) := by
  have hl : (view.text buffer).length = view.length := by
    rw [text, List.length_take, List.length_drop]
    omega
  have hr : (List.range' view.pos (view.text buffer).length).mapM (buffer[·]?) = some (view.text buffer) := by
    refine mapM_range' fun i hi => ?_
    rw [text, List.getElem?_take_of_lt (hl ▸ hi), List.getElem?_drop]
  rwa [hl] at hr

-- Anything of the right length can be in the memory of a buffer that is gone.
theorem exists_read (h : s.length = view.length) : ∃ memory, view.read memory = some s := by
  refine ⟨fun i => s[i - view.pos]?, ?_⟩
  rw [read, ← h]
  exact mapM_range' fun i _ => by rw [Nat.add_sub_cancel_left]

theorem read_unmapped (h : view.length ≠ 0) : view.read (fun _ => none) = none := by
  obtain ⟨n, hn⟩ := Nat.exists_eq_succ_of_ne_zero h
  rw [read, hn, List.range'_succ, List.mapM_cons]
  rfl

end View

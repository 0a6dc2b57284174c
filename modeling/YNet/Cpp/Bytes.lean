import YNet.Cpp.Exn

-- A `std::string` (or a `char` range) is the list of its bytes.
abbrev Bytes := List UInt8

namespace Bytes

def ofString (s : String) : Bytes :=
  s.toUTF8.data.toList

instance : Coe String Bytes where
  coe := ofString

-- The offset of the first occurrence of `pat` in a byte string.
def indexOf (pat : Bytes) : Bytes → Option Nat
  | []     => if pat.isPrefixOf [] then some 0 else none
  | c :: s => if pat.isPrefixOf (c :: s) then some 0 else (indexOf pat s).map (· + 1)

-- `s.find(pat, pos)`, where `none` stands for `npos`. As in C++ a start position behind the end of
-- `s` is no error.
def find (s pat : Bytes) (pos : Nat := 0) : Option Nat :=
  if pos ≤ s.length then (indexOf pat (s.drop pos)).map (pos + ·) else none

-- `s.find_first_not_of(set, pos)`.
def findFirstNotOf (s set : Bytes) (pos : Nat := 0) : Option Nat :=
  ((s.drop pos).findIdx? (· ∉ set)).map (pos + ·)

-- `s.find_last_not_of(set)`.
def findLastNotOf (s set : Bytes) : Option Nat :=
  (s.reverse.findIdx? (· ∉ set)).map (s.length - 1 - ·)

-- `s.substr(pos, n)`, which throws when `pos` lies behind the end of `s`.
def substr (s : Bytes) (pos n : Nat) : Except Exn Bytes :=
  if pos ≤ s.length then .ok ((s.drop pos).take n) else .error .outOfRange

-- `s.substr(pos)`.
def substrFrom (s : Bytes) (pos : Nat) : Except Exn Bytes :=
  if pos ≤ s.length then .ok (s.drop pos) else .error .outOfRange

-- The difference `a - b` of two `size_t` values, which wraps around when `b` is the larger one.
def sizeSub (a b : Nat) : Nat :=
  if b ≤ a then a - b else a + 2 ^ 64 - b

theorem sizeSub_of_le (h : b ≤ a) : sizeSub a b = a - b :=
  if_pos h

theorem substr_of_le {s : Bytes} (h : pos ≤ s.length) : s.substr pos n = .ok ((s.drop pos).take n) :=
  if_pos h

theorem substrFrom_of_le {s : Bytes} (h : pos ≤ s.length) : s.substrFrom pos = .ok (s.drop pos) :=
  if_pos h

theorem substr_append {a b c : Bytes} (ha : a.length = pos) (hb : b.length = n) :
    substr (a ++ (b ++ c)) pos n = .ok b := by
  subst ha hb
  rw [substr_of_le (by simp)]
  simp

theorem substrFrom_append {a b : Bytes} (ha : a.length = pos) :
    substrFrom (a ++ b) pos = .ok b := by
  subst ha
  rw [substrFrom_of_le (by simp)]
  simp

section IndexOf

variable {pat s : Bytes}

theorem indexOf_of_isPrefix (h : pat <+: s) : indexOf pat s = some 0 := by
  cases s <;> simp_all [indexOf]

theorem indexOf_cons_of_not (h : ¬pat <+: c :: s) :
    indexOf pat (c :: s) = (indexOf pat s).map (· + 1) := by
  simp [indexOf, h]

theorem indexOf_eq_some_iff :
    indexOf pat s = some i ↔ (pat <+: s.drop i ∧ i ≤ s.length ∧ ∀ j < i, ¬pat <+: s.drop j) := by
  induction s generalizing i
  case nil => cases i <;> simp [indexOf]
  case cons c s hi =>
    by_cases h : pat <+: c :: s
    case pos =>
      cases i
      case zero   => simp [indexOf_of_isPrefix h, h]
      case succ i =>
        simp only [indexOf_of_isPrefix h, Option.some.injEq, reduceCtorEq, false_iff]
        exact fun ⟨_, _, hn⟩ => hn 0 i.succ_pos h
    case neg =>
      rw [indexOf_cons_of_not h]
      cases i
      case zero   => simp [h]
      case succ i =>
        simp only [Option.map_eq_some_iff, Nat.add_right_cancel_iff, exists_eq_right, hi,
          List.drop_succ_cons, List.length_cons, Nat.add_le_add_iff_right]
        refine and_congr_right fun _ => and_congr_right fun _ => ⟨fun hj j hlt => ?_, fun hj j hlt => ?_⟩
        · cases j
          case zero   => exact h
          case succ j => exact hj j (by omega)
        · exact hj (j + 1) (by omega)

theorem indexOf_eq_none_iff : indexOf pat s = none ↔ ∀ i ≤ s.length, ¬pat <+: s.drop i := by
  induction s
  case nil => simp [indexOf]
  case cons c s hi =>
    by_cases h : pat <+: c :: s
    case pos =>
      simp only [indexOf_of_isPrefix h, reduceCtorEq, false_iff]
      exact fun hn => hn 0 (by simp) h
    case neg =>
      simp only [indexOf_cons_of_not h, Option.map_eq_none_iff, hi]
      refine ⟨fun hj j hlt => ?_, fun hj j hlt => hj (j + 1) (by simpa using hlt)⟩
      cases j
      case zero   => exact h
      case succ j => exact hj j (by simpa using hlt)

theorem indexOf_append_of_not {a : Bytes} (h : ∀ i < a.length, ¬pat <+: (a ++ s).drop i) :
    indexOf pat (a ++ s) = (indexOf pat s).map (a.length + ·) := by
  induction a
  case nil => simp
  case cons b a hi =>
    have hz : ¬pat <+: b :: (a ++ s) := h 0 (by simp)
    rw [List.cons_append, indexOf_cons_of_not hz, hi fun i hl => h (i + 1) (by simpa)]
    simp [Option.map_map, Function.comp_def, Nat.add_right_comm]

-- A pattern cannot occur in a stretch of bytes that does not contain the pattern's first byte.
theorem indexOf_append_of_head_not_mem {p : Bytes} {a : Bytes} (h : c ∉ a) :
    indexOf (c :: p) (a ++ s) = (indexOf (c :: p) s).map (a.length + ·) := by
  refine indexOf_append_of_not fun i hi hp => h ?_
  rw [List.drop_append_of_le_length hi.le, List.drop_eq_getElem_cons hi, List.cons_append,
    List.cons_prefix_cons] at hp
  exact hp.1 ▸ List.getElem_mem hi

theorem indexOf_of_head_not_mem {p : Bytes} (h : c ∉ s) : indexOf (c :: p) s = none := by
  have := indexOf_append_of_head_not_mem (s := []) (p := p) h
  simpa [indexOf] using this

theorem indexOf_append_self {p : Bytes} {a : Bytes} (h : c ∉ a) :
    indexOf (c :: p) (a ++ (c :: p ++ s)) = some a.length := by
  simp [indexOf_append_of_head_not_mem h, indexOf_of_isPrefix]

theorem prefix_drop_of_indexOf (h : indexOf pat s = some i) : pat <+: s.drop i :=
  (indexOf_eq_some_iff.mp h).1

theorem indexOf_le (h : indexOf pat s = some i) : i + pat.length ≤ s.length := by
  have ⟨hp, hi, _⟩ := indexOf_eq_some_iff.mp h
  have := hp.length_le
  simp only [List.length_drop] at this
  omega

-- An occurrence found in `s` is still the first one when more bytes follow.
theorem indexOf_append (h : indexOf pat s = some i) : indexOf pat (s ++ t) = some i := by
  have ⟨hp, hi, hn⟩ := indexOf_eq_some_iff.mp h
  have hl := indexOf_le h
  refine indexOf_eq_some_iff.mpr ⟨?_, by simp; omega, fun j hj hc => hn j hj ?_⟩
  · rw [List.drop_append_of_le_length hi]
    exact hp.trans (List.prefix_append ..)
  · rw [List.drop_append_of_le_length (by omega)] at hc
    exact List.prefix_of_prefix_length_le hc (List.prefix_append ..) (by simp; omega)

theorem indexOf_prefix (h : indexOf pat (s ++ t) = some i) (hl : i + pat.length ≤ s.length) :
    indexOf pat s = some i := by
  have ⟨hp, _, hn⟩ := indexOf_eq_some_iff.mp h
  refine indexOf_eq_some_iff.mpr ⟨?_, by omega, fun j hj hc => hn j hj ?_⟩
  · rw [List.drop_append_of_le_length (by omega)] at hp
    exact List.prefix_of_prefix_length_le hp (List.prefix_append ..) (by simp; omega)
  · rw [List.drop_append_of_le_length (by omega)]
    exact hc.trans (List.prefix_append ..)

end IndexOf

section Find

variable {pat s : Bytes}

theorem find_zero : s.find pat = indexOf pat s := by
  simp [find]

theorem find_eq_some_iff :
    s.find pat pos = some i ↔
      (pos ≤ i ∧ i ≤ s.length ∧ pat <+: s.drop i ∧ ∀ j, pos ≤ j → j < i → ¬pat <+: s.drop j) := by
  by_cases h : pos ≤ s.length
  case neg =>
    simp only [find, h, if_false, reduceCtorEq, false_iff]
    omega
  case pos =>
    simp only [find, h, if_true, Option.map_eq_some_iff, indexOf_eq_some_iff, List.drop_drop,
      List.length_drop]
    constructor
    · rintro ⟨k, ⟨hp, hk, hn⟩, rfl⟩
      refine ⟨by omega, by omega, hp, fun j h₁ h₂ hc => hn (j - pos) (by omega) ?_⟩
      rwa [Nat.add_sub_cancel' h₁]
    · rintro ⟨h₁, h₂, hp, hn⟩
      refine ⟨i - pos, ⟨?_, by omega, fun j hj => hn (pos + j) (by omega) (by omega)⟩, by omega⟩
      rwa [Nat.add_sub_cancel' h₁]

theorem find_eq_map (pat : Bytes) (h : pos ≤ s.length) :
    s.find pat pos = (find (s.drop pos) pat).map (pos + ·) := by
  simp [find, h]

theorem le_of_find (h : s.find pat pos = some i) : pos ≤ i :=
  (find_eq_some_iff.mp h).1

theorem prefix_drop_of_find (h : s.find pat pos = some i) : pat <+: s.drop i :=
  (find_eq_some_iff.mp h).2.2.1

theorem find_add_length_le (h : s.find pat pos = some i) : i + pat.length ≤ s.length := by
  have ⟨_, hi, hp, _⟩ := find_eq_some_iff.mp h
  have := hp.length_le
  simp only [List.length_drop] at this
  omega

theorem find_isSome_of_prefix (hp : pat <+: s.drop j) (hj : j ≤ s.length) (h : pos ≤ j) :
    ∃ i, s.find pat pos = some i ∧ i ≤ j := by
  cases hf : s.find pat pos
  case some i =>
    refine ⟨i, rfl, Nat.not_lt.mp fun hlt => ?_⟩
    exact (find_eq_some_iff.mp hf).2.2.2 j h hlt hp
  case none =>
    simp only [find, h.trans hj, if_true, Option.map_eq_none_iff, indexOf_eq_none_iff,
      List.drop_drop, List.length_drop] at hf
    have := hf (j - pos) (by omega)
    simp [Nat.add_sub_cancel' h, hp] at this

-- Whether an occurrence is found in a prefix depends on whether the prefix contains it.
theorem find_prefix {t : Bytes} (h : find (s ++ t) pat pos = some i) (hl : i + pat.length ≤ s.length) :
    s.find pat pos = some i := by
  have ⟨hp, _, hd, hn⟩ := find_eq_some_iff.mp h
  refine find_eq_some_iff.mpr ⟨hp, by omega, ?_, fun j h₁ h₂ hc => hn j h₁ h₂ ?_⟩
  · rw [List.drop_append_of_le_length (by omega)] at hd
    exact List.prefix_of_prefix_length_le hd (List.prefix_append ..) (by simp; omega)
  · rw [List.drop_append_of_le_length (by omega)]
    exact hc.trans (List.prefix_append ..)

theorem find_prefix_none {t : Bytes} (h : find (s ++ t) pat = some i) (hl : s.length < i + pat.length) :
    s.find pat = none := by
  cases hf : s.find pat
  case none   => rfl
  case some j =>
    have hj := find_add_length_le hf
    rw [find_zero] at h hf
    cases h.symm.trans (indexOf_append hf)
    omega

theorem pair_isPrefix_drop_iff :
    [a, b] <+: s.drop i ↔ (i + 1 < s.length ∧ s.getD i 0 = a ∧ s.getD (i + 1) 0 = b) := by
  by_cases h : i + 1 < s.length
  case pos =>
    rw [List.drop_eq_getElem_cons (by omega), List.drop_eq_getElem_cons h, List.cons_prefix_cons,
      List.cons_prefix_cons]
    simp [h, show i < s.length by omega, eq_comm]
  case neg =>
    simp only [h, false_and, iff_false]
    intro hp
    have := hp.length_le
    simp only [List.length_cons, List.length_nil, List.length_drop] at this
    omega

theorem find_append_left {a : Bytes} (h : a.length = pos) :
    find (a ++ s) pat pos = (indexOf pat s).map (pos + ·) := by
  subst h
  simp [find]

-- What lies in front of an occurrence, the occurrence itself, and what lies behind it.
theorem drop_eq_of_find (h : s.find pat pos = some i) :
    s.drop pos = (s.drop pos).take (i - pos) ++ (pat ++ s.drop (i + pat.length)) := by
  have hle := le_of_find h
  have hp := List.prefix_iff_eq_append.mp (prefix_drop_of_find h)
  rw [List.drop_drop] at hp
  rw [hp, ← Nat.add_sub_cancel' hle, ← List.drop_drop, Nat.add_sub_cancel_left,
    List.take_append_drop]

-- When a single byte is searched, it does not occur in front of the found position.
theorem drop_eq_of_find_byte (h : s.find [c] pos = some i) :
    ∃ t, c ∉ t ∧ (s.drop pos).take (i - pos) = t ∧ s.drop pos = t ++ c :: s.drop (i + 1) := by
  refine ⟨_, fun hc => ?_, rfl, drop_eq_of_find h⟩
  have ⟨j, hj, he⟩ := List.getElem_of_mem hc
  simp only [List.length_take, List.length_drop] at hj
  refine (find_eq_some_iff.mp h).2.2.2 (pos + j) (by omega) (by omega) ?_
  rw [List.drop_eq_getElem_cons (by omega)]
  simp_all

theorem not_mem_of_find_byte_none (h : s.find [c] pos = none) (hp : pos ≤ s.length) :
    c ∉ s.drop pos := by
  intro hc
  have ⟨j, hj, he⟩ := List.getElem_of_mem hc
  simp only [List.length_drop] at hj
  have hd : [c] <+: s.drop (pos + j) := by
    rw [List.drop_eq_getElem_cons (by omega)]
    simp_all
  have ⟨i, hi, _⟩ := find_isSome_of_prefix hd (by omega) (Nat.le_add_right ..)
  exact absurd (h.symm.trans hi) (by simp)

theorem find_byte_eq_none_iff : s.find [c] = none ↔ c ∉ s := by
  constructor
  · intro h
    have hm := not_mem_of_find_byte_none h (Nat.zero_le _)
    rwa [List.drop_zero] at hm
  · exact fun h => find_zero.trans (indexOf_of_head_not_mem h)

theorem find_byte_append {a : Bytes} (h : c ∉ a) : find (a ++ c :: s) [c] = some a.length :=
  find_zero.trans (indexOf_append_self (p := []) h)

-- The first occurrence of a byte splits a string in the same way as `takeWhile` and `dropWhile` do.
theorem span_of_find_byte (h : s.find [c] = some i) :
    s.takeWhile (· ≠ c) = s.take i ∧ s.dropWhile (· ≠ c) = c :: s.drop (i + 1) := by
  have ⟨t, hm, ht, hs⟩ := drop_eq_of_find_byte h
  rw [List.drop_zero, Nat.sub_zero] at ht
  rw [List.drop_zero] at hs
  have hp : ∀ b ∈ t, (decide (b ≠ c)) = true := by
    intro b hb
    simpa using fun he : b = c => hm (he ▸ hb)
  constructor
  · conv_lhs => rw [hs, List.takeWhile_append_of_pos hp]
    simp [ht]
  · conv_lhs => rw [hs, List.dropWhile_append_of_pos hp]
    simp

theorem span_of_find_byte_none (h : s.find [c] = none) :
    s.takeWhile (· ≠ c) = s ∧ s.dropWhile (· ≠ c) = [] := by
  have hm := find_byte_eq_none_iff.mp h
  have hp : ∀ b ∈ s, (decide (b ≠ c)) = true := by
    intro b hb
    simpa using fun he : b = c => hm (he ▸ hb)
  exact ⟨List.takeWhile_eq_self_iff.mpr hp, List.dropWhile_eq_nil_iff.mpr hp⟩

theorem findFirstNotOf_eq_none_iff {set : Bytes} : s.findFirstNotOf set = none ↔ ∀ b ∈ s, b ∈ set := by
  simp [findFirstNotOf]

theorem findLastNotOf_eq_none_iff {set : Bytes} : s.findLastNotOf set = none ↔ ∀ b ∈ s, b ∈ set := by
  simp [findLastNotOf]

end Find

end Bytes

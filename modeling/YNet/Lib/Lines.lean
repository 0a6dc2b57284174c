import YNet.Cpp.Ascii
import YNet.Cpp.Bytes

-- Texts that consist of lines with a two byte terminator, and a rest behind an empty line.
namespace Lines

open Bytes

abbrev crlf : Bytes := [Ascii.cr, Ascii.lf]

abbrev blank : Bytes := [Ascii.cr, Ascii.lf, Ascii.cr, Ascii.lf]

-- A line is a byte string that ends at the first terminator when a terminator is appended. It may
-- contain terminator bytes, even at its end.
def IsLine (l : Bytes) : Prop :=
  indexOf crlf (l ++ crlf) = some l.length

def wire (lines : List Bytes) : Bytes :=
  lines.flatMap (· ++ crlf)

@[simp]
theorem wire_nil : wire [] = [] :=
  rfl

@[simp]
theorem wire_cons : wire (l :: lines) = l ++ (crlf ++ wire lines) := by
  simp [wire]

theorem wire_append : wire (ls ++ ls') = wire ls ++ wire ls' := by
  simp [wire]

-- The terminators may as well be read as being in front of the lines.
theorem crlf_wire : crlf ++ (wire lines ++ s) = lines.flatMap (crlf ++ ·) ++ (crlf ++ s) := by
  induction lines with
  | nil           => rfl
  | cons l lines hi => rw [wire_cons, List.flatMap_cons]; simp_all

theorem IsLine.of_not_mem (h : Ascii.cr ∉ l) : IsLine l := by
  exact indexOf_append_self (s := []) h

theorem IsLine.of_no_terminator (h : ¬crlf <:+: l) : IsLine l := by
  have : indexOf crlf (l ++ crlf) = (indexOf crlf crlf).map (l.length + ·) := by
    refine indexOf_append_of_not fun i hi hp => ?_
    rw [List.drop_append_of_le_length hi.le] at hp
    rcases Nat.lt_or_ge (i + 1) l.length with hl | hl
    case inl =>
      refine h ?_
      have hs : (l.drop i).length ≥ crlf.length := by simp; omega
      have := List.prefix_of_prefix_length_le hp (List.prefix_append ..) hs
      exact this.isInfix.trans (List.drop_suffix ..).isInfix
    case inr =>
      -- The terminator would have to start with the last byte of the line.
      rw [List.drop_eq_getElem_cons hi, List.drop_eq_nil_of_le hl] at hp
      exact absurd (List.cons_prefix_cons.mp (List.cons_prefix_cons.mp hp).2).1 (by decide)
  simpa [IsLine, indexOf] using this

theorem IsLine.indexOf_eq (h : IsLine l) : indexOf crlf (l ++ (crlf ++ s)) = some l.length := by
  rw [← List.append_assoc]
  exact indexOf_append h

theorem IsLine.not_crlf_isPrefix (h : IsLine l) (hn : l ≠ []) : ¬crlf <+: l ++ (crlf ++ s) := by
  intro hp
  have := (indexOf_of_isPrefix hp).symm.trans h.indexOf_eq
  simp_all [eq_comm]

theorem exists_line_of_indexOf (h : indexOf crlf s = some i) :
    ∃ l t, s = l ++ (crlf ++ t) ∧ IsLine l ∧ l.length = i := by
  have hl := indexOf_le h
  have hp := List.prefix_iff_eq_append.mp (prefix_drop_of_indexOf h)
  have hs : s = (s.take i ++ crlf) ++ s.drop (i + 2) := by
    conv_lhs => rw [← List.take_append_drop i s, ← hp]
    simp
  have ht : (s.take i).length = i := by simp; omega
  refine ⟨s.take i, s.drop (i + 2), by simpa using hs, ?_, ht⟩
  rw [hs] at h
  rw [IsLine, ht]
  exact indexOf_prefix h (by simp [ht])

theorem isPrefix_of_blank (h : blank <+: s) : crlf <+: s :=
  .trans ⟨crlf, rfl⟩ h

-- The first empty line behind a line that is followed by a nonempty line.
theorem IsLine.indexOf_blank (h : IsLine l) (hs : ¬crlf <+: s) :
    indexOf blank (l ++ (crlf ++ s)) = (indexOf blank s).map (l.length + 2 + ·) := by
  have : indexOf blank ((l ++ crlf) ++ s) = (indexOf blank s).map ((l ++ crlf).length + ·) := by
    refine indexOf_append_of_not fun i hi hp => ?_
    have hc := isPrefix_of_blank hp
    rw [List.append_assoc] at hp hc
    rcases Nat.lt_trichotomy i l.length with hl | rfl | hl
    case inl      => exact (indexOf_eq_some_iff.mp h.indexOf_eq).2.2 i hl hc
    case inr.inl  => exact hs (by simpa using hp)
    case inr.inr  =>
      have : i = l.length + 1 := by simp at hi; omega
      subst this
      simp only [List.drop_append, List.drop_eq_nil_of_le (Nat.le_succ _), List.nil_append,
        Nat.add_sub_cancel_left, List.cons_append, List.drop_succ_cons, List.drop_zero] at hp
      exact absurd (List.cons_prefix_cons.mp hp).1 (by decide)
  simpa using this

theorem IsLine.indexOf_blank_of_isPrefix (h : IsLine l) (hs : crlf <+: s) :
    indexOf blank (l ++ (crlf ++ s)) = some l.length := by
  have ⟨t, ht⟩ := hs
  subst ht
  refine indexOf_eq_some_iff.mpr ⟨by simp, by simp, fun i hi hp => ?_⟩
  exact (indexOf_eq_some_iff.mp h.indexOf_eq).2.2 i hi (isPrefix_of_blank hp)

theorem indexOf_blank_wire (h₀ : IsLine l₀) (h : ∀ l ∈ lines, l ≠ [] ∧ IsLine l) :
    indexOf blank (l₀ ++ (crlf ++ (wire lines ++ (crlf ++ body))))
      = some (l₀.length + (wire lines).length) := by
  induction lines generalizing l₀
  case nil => simpa using h₀.indexOf_blank_of_isPrefix (List.prefix_append crlf body)
  case cons l lines hi =>
    have ⟨⟨hn, hl⟩, h⟩ := List.forall_mem_cons.mp h
    simp only [wire_cons, List.append_assoc]
    rw [h₀.indexOf_blank (hl.not_crlf_isPrefix hn), hi hl h]
    simp only [Option.map_some, Option.some.injEq, List.length_append, List.length_cons,
      List.length_nil]
    omega

theorem exists_line_of_blank {s : Bytes} (h : indexOf blank s = some i) :
    ∃ l t, s = l ++ (crlf ++ t) ∧ IsLine l ∧ (crlf <+: t ∨ ∃ i, indexOf blank t = some i) := by
  have hp := isPrefix_of_blank (prefix_drop_of_indexOf h)
  have ⟨j, hj, _⟩ := find_isSome_of_prefix hp ((Nat.le_add_right ..).trans (indexOf_le h)) i.zero_le
  rw [find_zero] at hj
  have ⟨l, t, he, hl, _⟩ := exists_line_of_indexOf hj
  subst he
  refine ⟨l, t, rfl, hl, ?_⟩
  by_cases hc : crlf <+: t
  case pos => exact .inl hc
  case neg =>
    rw [hl.indexOf_blank hc, Option.map_eq_some_iff] at h
    exact .inr <| h.imp fun _ h => h.1

-- All bytes up to the first empty line are made of nonempty lines.
theorem exists_wire {s : Bytes} (h : crlf <+: s ∨ ∃ i, indexOf blank s = some i) :
    ∃ lines body, s = wire lines ++ (crlf ++ body) ∧ ∀ l ∈ lines, l ≠ [] ∧ IsLine l := by
  by_cases hs : crlf <+: s
  case pos =>
    have ⟨body, hb⟩ := hs
    exact ⟨[], body, by simp [hb]⟩
  case neg =>
    have ⟨i, hi⟩ := h.resolve_left hs
    have ⟨l, t, he, hl, ht⟩ := exists_line_of_blank hi
    have hn : l ≠ [] := by
      rintro rfl
      exact hs (he ▸ List.prefix_append ..)
    have ⟨lines, body, hw, hlines⟩ := exists_wire ht
    exact ⟨l :: lines, body, by simp [he, hw], List.forall_mem_cons.mpr ⟨⟨hn, hl⟩, hlines⟩⟩
termination_by s.length
decreasing_by
  subst he
  simp only [List.length_append, List.length_cons]
  omega

theorem IsLine.no_terminator (h : IsLine l) : ¬crlf <:+: l := by
  rintro ⟨a, b, he⟩
  have hp : crlf <+: (l ++ crlf).drop a.length := by
    rw [← he]
    simp
  have hlt : a.length < l.length := by
    have := congrArg List.length he
    simp only [List.length_append, List.length_cons, List.length_nil] at this
    omega
  exact (indexOf_eq_some_iff.mp h).2.2 a.length hlt hp

theorem isLine_iff : IsLine l ↔ ¬crlf <:+: l :=
  ⟨IsLine.no_terminator, IsLine.of_no_terminator⟩

-- A reader that takes the lines up to the first empty one.
def readLines (s : Bytes) : Option (List Bytes × Bytes) :=
  match _h : indexOf crlf s with
  | none         => none
  | some 0       => some ([], s.drop 2)
  | some (i + 1) =>
    match readLines (s.drop (i + 3)) with
    | none               => none
    | some (lines, rest) => some (s.take (i + 1) :: lines, rest)
termination_by s.length
decreasing_by
  have : i + 1 + 2 ≤ _ := indexOf_le _h
  simp only [List.length_drop]
  omega

theorem readLines_empty : readLines (crlf ++ rest) = some ([], rest) := by
  have h : indexOf crlf (crlf ++ rest) = some 0 := indexOf_of_isPrefix (List.prefix_append ..)
  rw [readLines]
  split
  case h_1 h' => exact absurd (h.symm.trans h') (by simp)
  case h_2    => rfl
  case h_3 h' => exact absurd (h.symm.trans h') (by simp)

theorem readLines_line (hl : IsLine l) (hn : l ≠ []) (h : readLines s = some (lines, rest)) :
    readLines (l ++ (crlf ++ s)) = some (l :: lines, rest) := by
  have hi : indexOf crlf (l ++ (crlf ++ s)) = some l.length := hl.indexOf_eq
  have hpos := List.length_pos_iff.mpr hn
  rw [readLines]
  split
  case h_1 h' => exact absurd (hi.symm.trans h') (by simp)
  case h_2 h' =>
    have := Option.some.inj (hi.symm.trans h')
    omega
  case h_3 i h' =>
    have hl' : l.length = i + 1 := Option.some.inj (hi.symm.trans h')
    have hd : (l ++ (crlf ++ s)).drop (i + 3) = s := by
      rw [← List.append_assoc]
      exact List.drop_left' (by simp [hl'])
    rw [hd, h, ← hl', List.take_left]

-- The reader inverts `wire`, whatever follows the empty line.
theorem readLines_wire (h : ∀ l ∈ lines, l ≠ [] ∧ IsLine l) :
    readLines (wire lines ++ (crlf ++ rest)) = some (lines, rest) := by
  induction lines with
  | nil           => exact readLines_empty
  | cons l lines hi =>
    have ⟨⟨hn, hl⟩, h⟩ := List.forall_mem_cons.mp h
    rw [wire_cons, List.append_assoc, List.append_assoc]
    exact readLines_line hl hn (hi h)

-- The reader returns nothing but lines.
theorem readLines_sound (h : readLines s = some (lines, rest)) :
    (∀ l ∈ lines, l ≠ [] ∧ IsLine l) ∧ s = wire lines ++ (crlf ++ rest) := by
  fun_induction readLines s generalizing lines
  case case1 => contradiction
  case case2 s hi =>
    cases h
    obtain ⟨l, t, hs, _, hlen⟩ := exists_line_of_indexOf hi
    have hl : l = [] := List.length_eq_zero_iff.mp hlen
    subst hs hl
    exact ⟨by simp, rfl⟩
  case case3 => contradiction
  case case4 s i hi lines' rest' hr ih =>
    cases h
    obtain ⟨l, t, hs, hl, hlen⟩ := exists_line_of_indexOf hi
    obtain ⟨hlines, ht⟩ := ih hr
    subst hs
    have hdrop : (l ++ (crlf ++ t)).drop (i + 3) = t := by
      rw [← List.append_assoc]
      exact List.drop_left' (by simp [hlen])
    rw [hdrop] at ht
    rw [List.take_left' hlen, wire_cons, List.append_assoc, List.append_assoc, ← ht]
    have hn : l ≠ [] := by
      rintro rfl
      contradiction
    exact ⟨List.forall_mem_cons.mpr ⟨⟨hn, hl⟩, hlines⟩, rfl⟩

end Lines

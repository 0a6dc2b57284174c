import Mathlib

-- Splitting lists at a separator, and the sublists that survive it.
namespace List

variable {α : Type*} [DecidableEq α] {c : α} {s t p : List α}

omit [DecidableEq α] in
theorem cons_infix_append_iff (h : c ∉ t) : c :: p <:+: t ++ s ↔ c :: p <:+: s := by
  induction t
  case nil => rfl
  case cons b t hi =>
    have ⟨hb, ht⟩ : c ≠ b ∧ c ∉ t := by simpa using h
    rw [cons_append, infix_cons_iff, hi ht]
    simp [cons_prefix_cons, hb]

omit [DecidableEq α] in
-- An infix without the separator lies on one side of the separator.
theorem infix_append_cons (hp : c ∉ p) (h : p <:+: s ++ c :: t) : p <:+: s ∨ p <:+: t := by
  induction s
  case nil =>
    cases infix_cons_iff.mp h
    case inr h => exact .inr h
    case inl h =>
      cases p
      case nil    => exact .inl nil_infix
      case cons b => exact absurd (cons_prefix_cons.mp h).1 (by simp_all [eq_comm])
  case cons b s hi =>
    cases infix_cons_iff.mp h
    case inr h => exact (hi h).imp_left infix_cons
    case inl h =>
      cases Nat.lt_or_ge (b :: s).length p.length
      case inr hl => exact .inl (prefix_of_prefix_length_le h (prefix_append (b :: s) _) hl).isInfix
      case inl hl =>
        have hc : b :: s ++ [c] <+: b :: s ++ c :: t := ⟨t, by simp⟩
        have := prefix_of_prefix_length_le hc h (by simpa using Nat.succ_le_of_lt hl)
        exact absurd (this.subset (by simp)) hp

omit [DecidableEq α] in
theorem exists_infix_of_infix_flatMap {segs : List (List α)} (hp : c ∉ p) (hn : p ≠ [])
    (h : p <:+: segs.flatMap (c :: ·)) : ∃ s ∈ segs, p <:+: s := by
  induction segs
  case nil => simp_all
  case cons s segs hi =>
    rw [flatMap_cons, cons_append, ← nil_append (c :: _)] at h
    have h := (infix_append_cons hp h).resolve_left (by simp [hn])
    have : p <:+: s ∨ p <:+: segs.flatMap (c :: ·) := by
      cases segs
      case nil            => exact .inl (by simpa using h)
      case cons s' segs'  => exact (infix_append_cons hp h).imp_right infix_cons
    cases this
    case inl h => exact ⟨s, mem_cons_self, h⟩
    case inr h => exact (hi h).imp fun _ ⟨hm, hs⟩ => ⟨mem_cons_of_mem _ hm, hs⟩

theorem infix_of_mem_splitOn {s t : List α} (h : s ∈ t.splitOn c) : s <:+: t ∧ c ∉ s :=
  if hc : c ∈ t then by
    have ⟨u, r, he, hu⟩ := eq_append_cons_of_mem hc
    subst he
    rw [splitOn_append_cons_self_of_not_mem hu] at h
    cases h
    case head   => exact ⟨(prefix_append ..).isInfix, hu⟩
    case tail h =>
      have hr : r <:+: u ++ c :: r := ⟨u ++ [c], [], by simp⟩
      exact (infix_of_mem_splitOn h).imp_left (·.trans hr)
  else by
    rw [splitOn_eq_singleton hc] at h
    cases mem_singleton.mp h
    exact ⟨infix_rfl, hc⟩
termination_by t.length
decreasing_by
  subst he
  simp only [length_append, length_cons]
  omega

end List

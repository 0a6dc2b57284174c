import YNet.Cpp.Bytes
import YNet.Lib.Split

-- Where the first occurrence of a pattern lies, when a single byte tells it from what is in front.
namespace Bytes

variable {k p r s t u : Bytes}

-- A pattern without a byte `c` does not reach over an occurrence of `c`.
theorem indexOf_append_cons (hp : c ∉ p) (h : ¬p <:+: s) :
    indexOf p (s ++ c :: t) = (indexOf p t).map (s.length + 1 + ·) := by
  have : indexOf p ((s ++ [c]) ++ t) = (indexOf p t).map ((s ++ [c]).length + ·) := by
    refine indexOf_append_of_not fun i hi hc => ?_
    have hi : i ≤ s.length := by simpa [Nat.lt_succ_iff] using hi
    rw [List.append_assoc, List.drop_append_of_le_length hi] at hc
    by_cases hl : p.length ≤ (s.drop i).length
    case pos =>
      have := List.prefix_of_prefix_length_le hc (List.prefix_append ..) hl
      exact h (this.isInfix.trans (List.drop_suffix ..).isInfix)
    case neg =>
      have hs : s.drop i ++ [c] <+: s.drop i ++ ([c] ++ t) := by simp
      have := List.prefix_of_prefix_length_le hs hc (by simp at hl ⊢; omega)
      exact hp (this.subset (by simp))
  simpa using this

-- What is in front of the first `c` is determined.
theorem eq_of_append_cons (hs : c ∉ s) (ht : c ∉ t) (h : s ++ c :: r = t ++ c :: u) : s = t := by
  cases List.append_eq_append_iff.mp h
  case inl h =>
    have ⟨a, h₁, h₂⟩ := h
    cases a
    case nil       => simpa using h₁.symm
    case cons b a  => simp_all
  case inr h =>
    have ⟨a, h₁, h₂⟩ := h
    cases a
    case nil       => simpa using h₁
    case cons b a  => simp_all

-- An occurrence of `k ++ c :: r` is aligned with the first `c`.
theorem eq_drop_of_occurs (hu : c ∉ u) (hk : c ∉ k) (hi : i ≤ u.length)
    (h : k ++ c :: r <+: (u ++ c :: t).drop i) : k = u.drop i := by
  have ⟨z, hz⟩ := h
  rw [List.drop_append_of_le_length hi, List.append_assoc, List.cons_append] at hz
  have hd : c ∉ u.drop i := fun hc => hu (List.mem_of_mem_drop hc)
  exact eq_of_append_cons hk hd hz

theorem indexOf_skip (hu : c ∉ u) (hk : c ∉ k) (h : ¬k <:+ u) :
    indexOf (k ++ c :: r) (u ++ c :: t) = (indexOf (k ++ c :: r) t).map (u.length + 1 + ·) := by
  have : indexOf (k ++ c :: r) ((u ++ [c]) ++ t)
      = (indexOf (k ++ c :: r) t).map ((u ++ [c]).length + ·) := by
    refine indexOf_append_of_not fun i hi hp => h ?_
    rw [List.append_assoc] at hp
    have hi : i ≤ u.length := by simpa [Nat.lt_succ_iff] using hi
    exact eq_drop_of_occurs hu hk hi hp ▸ List.drop_suffix ..
  simpa using this

theorem indexOf_aligned (h : c ∉ u ++ k) :
    indexOf (k ++ c :: r) (u ++ (k ++ c :: (r ++ t))) = some u.length := by
  have hk : c ∉ k := fun hc => h (List.mem_append_right _ hc)
  refine indexOf_eq_some_iff.mpr ⟨by simp, by simp, fun j hj hp => ?_⟩
  rw [← List.append_assoc] at hp
  have := congrArg List.length (eq_drop_of_occurs h hk (by simp; omega) hp)
  simp only [List.length_drop, List.length_append] at this
  omega

theorem indexOf_of_not_mem (hp : c ∈ p) (h : c ∉ s) : indexOf p s = none := by
  refine indexOf_eq_none_iff.mpr fun i _ hc => h ?_
  exact List.mem_of_mem_drop (hc.subset hp)

end Bytes

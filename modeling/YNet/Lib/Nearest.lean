import Mathlib

-- Rounding to the multiples of a number.

-- No multiple of `d` is nearer to `a` than the one with the factor `k`.
def Nearest (a d k : Nat) : Prop :=
  2 * a ≤ (2 * k + 1) * d ∧ 2 * k * d ≤ 2 * a + d

namespace Nearest

theorem le_of_le (h : Nearest a d k) (hd : 0 < d) (ha : a ≤ j * d) : k ≤ j := by
  have hlt : 2 * k * d < (2 * j + 2) * d := by
    have := h.2
    linarith
  have := Nat.lt_of_mul_lt_mul_right hlt
  omega

theorem le_of_ge (h : Nearest a d k) (hd : 0 < d) (ha : j * d ≤ a) : j ≤ k := by
  have hlt : 2 * j * d < (2 * k + 2) * d := by
    have := h.1
    linarith
  have := Nat.lt_of_mul_lt_mul_right hlt
  omega

-- A multiple that is nearer than half of the distance between two of them.
theorem eq_of_lt (h : Nearest a d k) (hl : 2 * a < (2 * j + 1) * d) (hu : 2 * j * d < 2 * a + d) : k = j := by
  have hk : 2 * k * d < (2 * j + 2) * d := by
    have := h.2
    linarith
  have hj : 2 * j * d < (2 * k + 2) * d := by
    have := h.1
    linarith
  have := Nat.lt_of_mul_lt_mul_right hk
  have := Nat.lt_of_mul_lt_mul_right hj
  omega

-- Rounding to a finer grid is undone by rounding to the coarser one.
theorem eq_of_finer (h : Nearest (m * t) u k) (hut : u < t) (h' : Nearest (k * u) t m') : m' = m := by
  have hl := h.1
  have hu := h.2
  exact h'.eq_of_lt (by linarith) (by linarith)

-- A point of the coarser grid is found again behind the rounding to the finer one.
theorem eq_of_coarser (h : Nearest (j * u) t m) (htu : t < u) (h' : Nearest (m * t) u k) : k = j := by
  have hl := h.1
  have hu := h.2
  exact h'.eq_of_lt (by linarith) (by linarith)

-- The distance that two roundings put between a number and what comes of it.
theorem dist_le (h : Nearest a t m) (h' : Nearest (m * t) u k) (hut : u ≤ t) :
    a ≤ k * u + t ∧ k * u ≤ a + t := by
  have hl := h.1
  have hu := h.2
  have hl' := h'.1
  have hu' := h'.2
  constructor <;> linarith

end Nearest

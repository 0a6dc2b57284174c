import YNet.Lib.Run

-- Infinite executions of a labelled transition system, and what comes about in them in the end.
structure Execution {σ ε : Type} (step : σ → ε → σ → Prop) (start : σ) where
  state      : Nat → σ
  label      : Nat → ε
  state_zero : state 0 = start
  step       : ∀ i, step (state i) (label i) (state (i + 1))

namespace Execution

variable {σ ε : Type} {step : σ → ε → σ → Prop} {s s' : σ} {x : Execution step s} {A : ε → Prop} {P : Nat → Prop}
  {i j : Nat}

theorem run (x : Execution step s) (i : Nat) : Run step s ((List.range i).map x.label) (x.state i) := by
  induction i with
  | zero      => exact x.state_zero.symm ▸ .nil
  | succ i hi =>
    rw [List.range_succ, List.map_append]
    exact hi.append (.single (x.step i))

def cons (h : step s e m) (x : Execution step m) : Execution step s where
  state      := Nat.rec s fun i _ => x.state i
  label      := Nat.rec e fun i _ => x.label i
  state_zero := rfl
  step
    | 0     => show step s e (x.state 0) from x.state_zero.symm ▸ h
    | i + 1 => x.step i

-- A run that ends with a step that can be repeated, goes on forever.
theorem exists_of_run (h : Run step s tr s') (hs : step s' e s') : ∃ x : Execution step s,
    (∀ i, x.label i = tr.getD i e) ∧ ∀ i, tr.length ≤ i → x.state i = s' := by
  induction h with
  | nil          => exact ⟨⟨fun _ => _, fun _ => e, rfl, fun _ => hs⟩, fun _ => rfl, fun _ _ => rfl⟩
  | cons hm _ hi =>
    have ⟨x, hl, hx⟩ := hi hs
    refine ⟨cons hm x, fun i => ?_, fun i hi => ?_⟩
    · cases i with
      | zero   => rfl
      | succ i => exact hl i
    · cases i with
      | zero   => contradiction
      | succ i => exact hx i (Nat.le_of_succ_le_succ hi)

-- A step of the kind `A` is made at some time, if such steps can be made at all times.
def Fair (x : Execution step s) (A : ε → Prop) : Prop :=
  ∀ i, (∀ j ≥ i, ∃ e s', A e ∧ step (x.state j) e s') → ∃ j ≥ i, A (x.label j)

-- What holds until a step of the kind `A` is made, holds up to the first of them.
theorem holds_until (hp : P i) (hk : ∀ j ≥ i, P j → A (x.label j) ∨ P (j + 1)) (hj : i ≤ j)
    (hn : ∀ k ≥ i, k < j → ¬A (x.label k)) : P j := by
  induction j, hj using Nat.le_induction with
  | base           => exact hp
  | succ j hij hi  =>
    have hpj := hi fun k hk hkj => hn k hk (hkj.trans j.lt_succ_self)
    exact (hk j hij hpj).resolve_left (hn j hij j.lt_succ_self)

theorem exists_first (h : ∃ j ≥ i, A (x.label j)) (hp : P i) (hk : ∀ j ≥ i, P j → A (x.label j) ∨ P (j + 1)) :
    ∃ j ≥ i, A (x.label j) ∧ ∀ k ≥ i, k ≤ j → P k := by
  classical
  refine ⟨Nat.find h, (Nat.find_spec h).1, (Nat.find_spec h).2, fun k hik hkj => ?_⟩
  exact holds_until hp hk hik fun l hl hlk ha => Nat.find_min h (hlk.trans_le hkj) ⟨hl, ha⟩

-- Where a step of the kind `A` is possible until one is made, one is made.
theorem Fair.until (hf : x.Fair A) (hp : P i) (hk : ∀ j ≥ i, P j → A (x.label j) ∨ P (j + 1))
    (he : ∀ j ≥ i, P j → ∃ e s', A e ∧ step (x.state j) e s') :
    ∃ j ≥ i, A (x.label j) ∧ ∀ k ≥ i, k ≤ j → P k := by
  refine exists_first (by_contra fun hn => hn ?_) hp hk
  exact hf i fun j hj => he j hj (holds_until hp hk hj fun k hk _ ha => hn ⟨k, hk, ha⟩)

-- A goal is reached, if at any time it is, or there is a later time at which it is nearer.
theorem leads_to {μ : Type} {a : μ} {r : μ → μ → Prop} (hr : WellFounded r) {Q : μ → Nat → Prop} {goal : Nat → Nat → Prop}
    (h : ∀ a i, Q a i → (∃ j, goal i j) ∨ ∃ b k, r b a ∧ Q b k ∧ ∀ j, goal k j → goal i j) (hq : Q a i) :
    ∃ j, goal i j := by
  induction a using hr.induction generalizing i with
  | _ a hi =>
    obtain hg | ⟨b, k, hb, hk, hg⟩ := h a i hq
    · exact hg
    · have ⟨j, hj⟩ := hi b hb hk
      exact ⟨j, hg j hj⟩

end Execution

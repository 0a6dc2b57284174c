import Mathlib

-- The runs of a labelled transition system, each with the labels of its steps.
inductive Run {σ ε : Type} (step : σ → ε → σ → Prop) : σ → List ε → σ → Prop
  | nil : Run step s [] s
  | cons : (step s e s') → (Run step s' tr s'') → Run step s (e :: tr) s''

namespace Run

variable {σ ε : Type} {step : σ → ε → σ → Prop} {s s' : σ} {tr tr₁ tr₂ : List ε}

theorem single (h : step s e s') : Run step s [e] s' :=
  .cons h .nil

theorem append (h₁ : Run step s tr₁ m) (h₂ : Run step m tr₂ s') : Run step s (tr₁ ++ tr₂) s' := by
  induction h₁
  case nil          => exact h₂
  case cons hs _ hi => exact .cons hs (hi h₂)

theorem append_iff : Run step s (tr₁ ++ tr₂) s' ↔ ∃ m, Run step s tr₁ m ∧ Run step m tr₂ s' := by
  refine ⟨fun h => ?_, fun ⟨_, h₁, h₂⟩ => h₁.append h₂⟩
  induction tr₁ generalizing s
  case nil => exact ⟨s, .nil, h⟩
  case cons hi =>
    cases h
    case cons hs h =>
      have ⟨m, h₁, h₂⟩ := hi h
      exact ⟨m, .cons hs h₁, h₂⟩

theorem concat_iff : Run step s (tr ++ [e]) s' ↔ ∃ m, Run step s tr m ∧ step m e s' := by
  rw [append_iff]
  refine exists_congr fun m => and_congr_right fun _ => ⟨fun h => ?_, single⟩
  cases h
  case cons hs h => cases h; exact hs

-- A step of a run, with what happens before and after it.
theorem mid_iff : Run step s (tr₁ ++ e :: tr₂) s' ↔
    ∃ m m', Run step s tr₁ m ∧ step m e m' ∧ Run step m' tr₂ s' := by
  rw [append_iff]
  constructor
  · rintro ⟨m, h₁, h₂⟩
    cases h₂
    case cons hs h₂ => exact ⟨m, _, h₁, hs, h₂⟩
  · exact fun ⟨m, _, h₁, hs, h₂⟩ => ⟨m, h₁, .cons hs h₂⟩

theorem mono {step' : σ → ε → σ → Prop} (h : Run step s tr s') (hstep : ∀ s e s', step s e s' → step' s e s') :
    Run step' s tr s' := by
  induction h
  case nil          => exact .nil
  case cons hs _ hi => exact .cons (hstep _ _ _ hs) hi

-- What every step preserves, holds at the end of a run if it holds at its beginning.
theorem invariant {I : σ → Prop} (h : Run step s tr s') (hi : I s)
    (hstep : ∀ s e s', step s e s' → I s → I s') : I s' := by
  induction h
  case nil          => exact hi
  case cons hs _ hr => exact hr (hstep _ _ _ hs hi)

-- A relation between the labels so far and the state.
theorem history {I : List ε → σ → Prop} (h : Run step s tr s') (hnil : I [] s)
    (hstep : ∀ tr s' e s'', Run step s tr s' → step s' e s'' → I tr s' → I (tr ++ [e]) s'') : I tr s' := by
  induction tr using List.reverseRecOn generalizing s'
  case nil => cases h; exact hnil
  case append_singleton tr e hi =>
    have ⟨m, h, hs⟩ := concat_iff.mp h
    exact hstep tr m e s' h hs (hi h)

theorem monotone {R : σ → σ → Prop} (h : Run step s tr s') (hrefl : ∀ s, R s s)
    (htrans : ∀ a b c, R a b → R b c → R a c) (hstep : ∀ s e s', step s e s' → R s s') : R s s' := by
  induction h
  case nil          => exact hrefl _
  case cons hs _ hi => exact htrans _ _ _ (hstep _ _ _ hs) hi

-- If all steps depend only on the label, then so do the runs.
theorem deterministic (h₁ : Run step s tr s₁) (h₂ : Run step s tr s₂)
    (hstep : ∀ s e s₁ s₂, step s e s₁ → step s e s₂ → s₁ = s₂) : s₁ = s₂ := by
  induction h₁
  case nil => cases h₂; rfl
  case cons hs _ hi =>
    cases h₂
    case cons hs' h₂ => exact hi (hstep _ _ _ _ hs' hs ▸ h₂)

section Last

variable {α : Type} {f : ε → Option α}

-- The last value that a function has along the labels.
def last (f : ε → Option α) (tr : List ε) : Option α :=
  tr.reverse.findSome? f

theorem last_concat : last f (tr ++ [e]) = (f e).or (last f tr) := by
  simp only [last, List.reverse_append, List.reverse_singleton, List.singleton_append, List.findSome?_cons]
  cases f e <;> rfl

theorem last_eq_some (h : last f tr = some a) :
    ∃ tr₁ e tr₂, tr = tr₁ ++ e :: tr₂ ∧ f e = some a ∧ ∀ e' ∈ tr₂, f e' = none := by
  induction tr using List.reverseRecOn
  case nil => simp [last] at h
  case append_singleton tr e hi =>
    rw [last_concat] at h
    cases he : f e
    case some =>
      rw [he] at h
      exact ⟨tr, e, [], rfl, he.trans h, by simp⟩
    case none =>
      rw [he, Option.none_or] at h
      have ⟨tr₁, e', tr₂, ht, hf, hn⟩ := hi h
      refine ⟨tr₁, e', tr₂ ++ [e], by simp [ht], hf, fun e'' hm => ?_⟩
      cases List.mem_append.mp hm
      case inl hm => exact hn e'' hm
      case inr hm => exact List.mem_singleton.mp hm ▸ he

end Last

section Each

variable {e : ε} {P : List ε → ε → Prop}

-- A condition on each label, and on the labels in front of it.
def Each (P : List ε → ε → Prop) (tr : List ε) : Prop :=
  ∀ tr₁ e tr₂, tr = tr₁ ++ e :: tr₂ → P tr₁ e

@[simp]
theorem each_nil : Each P [] := by
  simp [Each]

@[simp]
theorem each_cons : Each P (e :: tr) ↔ P [] e ∧ Each (fun tr₁ => P (e :: tr₁)) tr := by
  refine ⟨fun h => ⟨h [] e tr rfl, fun tr₁ e' tr₂ ht => h (e :: tr₁) e' tr₂ (ht ▸ rfl)⟩, fun ⟨he, h⟩ tr₁ e' tr₂ ht => ?_⟩
  cases tr₁ with
  | nil =>
    cases ht
    exact he
  | cons e'' tr₁ =>
    have ⟨heq, ht⟩ := List.cons.inj ht
    exact heq ▸ h tr₁ e' tr₂ ht

end Each

end Run

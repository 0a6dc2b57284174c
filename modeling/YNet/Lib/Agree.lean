import Mathlib

-- Two runs of computations that can fail.
namespace Except

universe u v

variable {ε : Type v} {α β γ δ : Type u}

-- Both runs fail in the same way, or both return, with results in the relation `R`.
inductive Agree (R : α → β → Prop) : Except ε α → Except ε β → Prop
  | error : Agree R (.error e) (.error e)
  | ok (h : R a b) : Agree R (.ok a) (.ok b)

namespace Agree

variable {R : α → β → Prop} {S : γ → δ → Prop} {x : Except ε α} {y : Except ε β}

theorem bind {f : α → Except ε γ} {g : β → Except ε δ} (h : Agree R x y)
    (hf : ∀ a b, R a b → Agree S (f a) (g b)) : Agree S (x >>= f) (y >>= g) := by
  cases h with
  | error => exact .error
  | ok h  => exact hf _ _ h

theorem mono {R' : α → β → Prop} (h : Agree R x y) (hr : ∀ a b, R a b → R' a b) : Agree R' x y := by
  cases h with
  | error => exact .error
  | ok h  => exact .ok (hr _ _ h)

-- The same first step, and then steps that depend on the run.
theorem bind_same {x : Except ε α} {f : α → Except ε γ} {g : α → Except ε δ}
    (hf : ∀ a, x = .ok a → Agree S (f a) (g a)) : Agree S (x >>= f) (x >>= g) := by
  cases x with
  | error e => exact .error
  | ok a    => exact hf a rfl

theorem mapM {f : α → Except ε γ} {g : β → Except ε δ} {as : List α} {bs : List β} (h : List.Forall₂ R as bs)
    (hf : ∀ a b, R a b → Agree S (f a) (g b)) : Agree (List.Forall₂ S) (as.mapM f) (bs.mapM g) := by
  induction h with
  | nil          => exact .ok .nil
  | cons h _ hi  =>
    rw [List.mapM_cons, List.mapM_cons]
    exact (hf _ _ h).bind fun _ _ h => hi.bind fun _ _ hs => .ok (.cons h hs)

end Agree

-- The second computation has the result of the first one, unless this one fails with the error `e`.
def Below (e : ε) (x y : Except ε α) : Prop :=
  x ≠ .error e → y = x

namespace Below

variable {e : ε} {x y : Except ε α}

theorem refl : Below e x x :=
  fun _ => rfl

theorem trans {z : Except ε α} (h : Below e x y) (h' : Below e y z) : Below e x z :=
  fun hx => (h' (h hx ▸ hx)).trans (h hx)

theorem bind {f g : α → Except ε γ} (h : Below e x y) (hf : ∀ a, Below e (f a) (g a)) :
    Below e (x >>= f) (y >>= g) := by
  intro hn
  cases x with
  | error e' =>
    have hn : (Except.error e' : Except ε α) ≠ .error e := fun he => hn (congrArg _ (Except.error.inj he))
    rw [h hn]
    rfl
  | ok a     =>
    rw [h nofun]
    exact hf a hn

theorem mapM {f g : α → Except ε γ} (hf : ∀ a, Below e (f a) (g a)) (as : List α) :
    Below e (as.mapM f) (as.mapM g) := by
  induction as with
  | nil          => exact refl
  | cons a as hi =>
    rw [List.mapM_cons, List.mapM_cons]
    exact (hf a).bind fun _ => hi.bind fun _ => refl

end Below

-- With enough fuel the computation has the result `x`, unless this is the error `e`.
def Attains (e : ε) (f : Nat → Except ε α) (x : Except ε α) : Prop :=
  x ≠ .error e → ∃ m, ∀ n ≥ m, f n = x

namespace Attains

variable {e : ε} {f : Nat → Except ε α} {x : Except ε α}

theorem const : Attains e (fun _ => x) x :=
  fun _ => ⟨0, fun _ _ => rfl⟩

theorem succ (h : Attains e (fun n => f (n + 1)) x) : Attains e f x := by
  intro hx
  have ⟨m, hm⟩ := h hx
  refine ⟨m + 1, fun n hn => ?_⟩
  obtain ⟨n, rfl⟩ := Nat.exists_eq_add_of_le' hn
  exact hm (n + m) (Nat.le_add_left m n)

theorem bind {g : Nat → α → Except ε γ} {y : α → Except ε γ} (h : Attains e f x)
    (hg : ∀ a, Attains e (fun n => g n a) (y a)) : Attains e (fun n => f n >>= g n) (x >>= y) := by
  intro hx
  cases x with
  | error e' =>
    have ⟨m, hm⟩ := h fun he => hx (congrArg _ (Except.error.inj he))
    exact ⟨m, fun n hn => congrArg (· >>= g n) (hm n hn)⟩
  | ok a     =>
    have ⟨m, hm⟩ := h nofun
    have ⟨m', hm'⟩ := hg a hx
    refine ⟨max m m', fun n hn => (congrArg (· >>= g n) (hm n (le_of_max_le_left hn))).trans ?_⟩
    exact hm' n (le_of_max_le_right hn)

theorem mapM {f : Nat → α → Except ε γ} {x : α → Except ε γ} (h : ∀ a, Attains e (fun n => f n a) (x a)) (as : List α) :
    Attains e (fun n => as.mapM (f n)) (as.mapM x) := by
  induction as with
  | nil          => exact const
  | cons a as hi =>
    simp only [List.mapM_cons]
    exact (h a).bind fun _ => hi.bind fun _ => const

end Attains

-- The computation fails with an error of the kind `E`, or returns a result of the kind `Q`.
inductive Ends (E : ε → Prop) (Q : α → Prop) : Except ε α → Prop
  | error (h : E e) : Ends E Q (.error e)
  | ok (h : Q a) : Ends E Q (.ok a)

namespace Ends

variable {E : ε → Prop} {Q : α → Prop} {S : γ → Prop} {x : Except ε α}

theorem bind {f : α → Except ε γ} (h : Ends E Q x) (hf : ∀ a, x = .ok a → Q a → Ends E S (f a)) :
    Ends E S (x >>= f) := by
  cases h with
  | error h => exact .error h
  | ok h    => exact hf _ rfl h

theorem mapM {f : α → Except ε γ} (hf : ∀ a, Ends E (fun _ => True) (f a)) (as : List α) :
    Ends E (fun _ => True) (as.mapM f) := by
  induction as with
  | nil          => exact .ok trivial
  | cons a as hi =>
    rw [List.mapM_cons]
    exact (hf a).bind fun _ _ _ => hi.bind fun _ _ _ => .ok trivial

end Ends

-- The computation has a result.
def Returns (x : Except ε α) : Prop :=
  ∃ a, x = .ok a

namespace Returns

variable {x : Except ε α}

theorem ok (a : α) : Returns (.ok a : Except ε α) :=
  ⟨a, rfl⟩

theorem not_error (e : ε) : ¬Returns (.error e : Except ε α) :=
  fun ⟨_, h⟩ => nomatch h

theorem bind_iff {f : α → Except ε γ} {p : Prop} (h : ∀ a, x = .ok a → (Returns (f a) ↔ p)) :
    Returns (x >>= f) ↔ Returns x ∧ p := by
  cases x with
  | error e => exact iff_of_false (not_error e) fun h => not_error e h.1
  | ok a    => exact (h a rfl).trans (and_iff_right (ok a)).symm

theorem mapM_iff {f : α → Except ε γ} {as : List α} : Returns (as.mapM f) ↔ ∀ a ∈ as, Returns (f a) := by
  induction as with
  | nil          => exact iff_of_true (ok _) (by simp)
  | cons a as hi =>
    rw [List.mapM_cons, List.forall_mem_cons, ← hi]
    exact bind_iff fun b _ => (bind_iff fun bs _ => iff_of_true (ok _) trivial).trans (and_iff_left trivial)

end Returns

end Except
